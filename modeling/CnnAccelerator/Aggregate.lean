import CnnAccelerator.Lib.Scan
import CnnAccelerator.Notebook

/- A VHDL constant read from its text: a positional aggregate of bit string literals, given
   to an array(n - 1 downto 0) of fixed_point. -/
namespace CnnAccelerator
open Tiling Scan

namespace Aggregate

inductive Reader where
  | opening
  | element (read : List (List Char))
  | quote (read : List (List Char))
  | digits (read : List (List Char)) (ds : List Char)
  | after (read : List (List Char))
  | closing (read : List (List Char))
  | finished (read : List (List Char))
  deriving DecidableEq, Repr

def blank (c : Char) : Bool := c = ' ' || c = '\n' || c = '\t'

def Reader.next : Reader → Char → Option Reader
  | .opening, c => if c = '(' then some (.element []) else if blank c then some .opening else none
  | .element read, c =>
    if c = 'X' then some (.quote read) else if blank c then some (.element read) else none
  | .quote read, c => if c = '"' then some (.digits read []) else none
  | .digits read ds, c =>
    if c = '"' then some (.after (read ++ [ds])) else some (.digits read (ds ++ [c]))
  | .after read, c =>
    if c = ',' then some (.element read) else if c = ')' then some (.closing read)
    else if blank c then some (.after read) else none
  | .closing read, c =>
    if c = ';' then some (.finished read) else if blank c then some (.closing read) else none
  | .finished read, c => if blank c then some (.finished read) else none

def hexDigit (c : Char) : Option ℕ :=
  if '0' ≤ c ∧ c ≤ '9' then some (c.toNat - '0'.toNat)
  else if 'A' ≤ c ∧ c ≤ 'F' then some (c.toNat - 'A'.toNat + 10)
  else if 'a' ≤ c ∧ c ≤ 'f' then some (c.toNat - 'a'.toNat + 10)
  else none

/-- A literal of fixed_point has the four digits of 16 bits. -/
def literal (ds : List Char) : Option FixedPoint :=
  match ds.mapM hexDigit with
  | some [a, b, c, d] => some (BitVec.ofNat 16 (((a * 16 + b) * 16 + c) * 16 + d))
  | _ => none

def readLiterals (text : List Char) : Option (List FixedPoint) :=
  match text.foldlM Reader.next .opening with
  | some (.finished read) => read.mapM literal
  | _ => none

/-- The first element goes to the leftmost index, n - 1. -/
def readConstant (n : ℕ) (text : List Char) : Option (Vector FixedPoint n) :=
  (readLiterals text).bind fun ws =>
    if h : ws.length = n then some ⟨ws.reverse.toArray, by simp [h]⟩ else none

theorem quote_not_hex {ds : List Char} (member : '"' ∈ ds) : ds.mapM hexDigit = none := by
  induction ds with
  | nil => simp at member
  | cons d ds ih =>
    rw [List.mapM_cons]
    rcases List.mem_cons.mp member with here | later
    · subst here
      rfl
    · rw [ih later]
      cases hexDigit d <;> rfl

theorem literal_unquoted {ds : List Char} {word : FixedPoint} (reads : literal ds = some word) :
    '"' ∉ ds := by
  intro member
  unfold literal at reads
  rw [quote_not_hex member] at reads
  contradiction

/- What the reader does on the pieces of the printed text. -/

theorem reads_digits (read : List (List Char)) {ds : List Char} (unquoted : '"' ∉ ds) :
    Scans Reader.next (.digits read []) (ds ++ ['"']) (.after (read ++ [ds])) := by
  refine scans_append (scans_collect (Reader.digits read) ?_ []) rfl
  intro d member front
  have plain : d ≠ '"' := by
    rintro rfl
    exact unquoted member
  exact if_neg plain

theorem reads_literal (read : List (List Char)) {ds : List Char} (unquoted : '"' ∉ ds) :
    Scans Reader.next (.element read) (['X', '"'] ++ ds ++ ['"']) (.after (read ++ [ds])) := by
  rw [List.append_assoc]
  have opened : Scans Reader.next (.element read) ['X', '"'] (.digits read []) := rfl
  exact scans_append opened (reads_digits read unquoted)

section Printed
open Notebook

theorem reads_weight (read : List (List Char)) {weight : List Char}
    (unquoted : '"' ∉ weight.drop 2) :
    Scans Reader.next (.element read) (weightText weight)
      (.element (read ++ [weight.drop 2])) := by
  have split : weightText weight = ['X', '"'] ++ weight.drop 2 ++ ['"'] ++ [',', ' '] := by
    simp [weightText]
  rw [split]
  exact scans_append (reads_literal read unquoted) rfl

theorem reads_row (row : List (List Char)) (unquoted : ∀ weight ∈ row, '"' ∉ weight.drop 2)
    (read : List (List Char)) :
    Scans Reader.next (.element read) (row.flatMap weightText)
      (.element (read ++ row.map (·.drop 2))) := by
  have pieces := scans_flatMap Reader.element weightText (fun weight => [weight.drop 2])
    (fun weight member read => reads_weight read (unquoted weight member)) read
  rwa [← List.map_eq_flatMap] at pieces

def rowText (row : List (List Char)) : List Char := row.flatMap weightText ++ ['\n', ' ']

theorem reads_rows (rows : List (List (List Char)))
    (unquoted : ∀ row ∈ rows, ∀ weight ∈ row, '"' ∉ weight.drop 2) (read : List (List Char)) :
    Scans Reader.next (.element read) (rows.flatMap rowText)
      (.element (read ++ rows.flatten.map (·.drop 2))) := by
  have pieces := scans_flatMap Reader.element rowText (List.map (·.drop 2)) (fun row member => by
      intro read
      exact scans_append (reads_row row (unquoted row member) read) rfl) read
  rwa [List.flatMap_def (f := List.map _), ← List.map_flatten] at pieces

variable {hexed : List (List (List Char))}

theorem printed_text (rows : List (List (List Char))) (row : List (List Char))
    (weight : List Char) (last : npFlip hexed = rows ++ [row ++ [weight]]) :
    weightsToVHDL hexed = ['('] ++ rows.flatMap rowText ++ row.flatMap weightText ++
      (['X', '"'] ++ weight.drop 2 ++ ['"']) ++ [')', ';', '\n'] := by
  have loops : (npFlip hexed).foldl (fun outputStr row => row.foldl (fun outputStr weight =>
      outputStr ++ weightText weight) outputStr ++ ['\n', ' ']) ['('] =
      ['('] ++ rows.flatMap rowText ++ row.flatMap weightText ++
        (['X', '"'] ++ weight.drop 2 ++ ['"']) ++ [',', ' ', '\n', ' '] := by
    rw [last]
    unfold rowText weightText
    simp [List.flatMap_def]
  unfold weightsToVHDL
  simp only [loops]
  rw [List.length_append, List.length_cons, List.length_cons, List.length_cons, List.length_cons,
    List.length_nil, Nat.add_sub_cancel, List.take_left]

theorem reads_printed (some_row : npFlip hexed ≠ []) (wide : ∀ row ∈ npFlip hexed, row ≠ [])
    (unquoted : ∀ row ∈ npFlip hexed, ∀ weight ∈ row, '"' ∉ weight.drop 2) :
    Scans Reader.next .opening (weightsToVHDL hexed)
      (.finished ((npFlip hexed).flatten.map (·.drop 2))) := by
  obtain ⟨rows, final, last⟩ := (List.eq_nil_or_concat (npFlip hexed)).resolve_left some_row
  rw [List.concat_eq_append] at last
  obtain ⟨row, weight, rfl⟩ :=
    (List.eq_nil_or_concat final).resolve_left (wide final (by simp [last]))
  rw [List.concat_eq_append] at last
  have inLast := unquoted (row ++ [weight]) (by simp [last])
  have whole := reads_rows rows (fun row member => unquoted row (by simp [last, member])) []
  have front := reads_row row (fun w member => inLast w (by simp [member]))
    (rows.flatten.map (·.drop 2))
  have close := reads_literal (rows.flatten.map (·.drop 2) ++ row.map (·.drop 2))
    (inLast weight (by simp))
  have opened : Scans Reader.next .opening ['('] (.element []) := rfl
  have all : (npFlip hexed).flatten.map (·.drop 2) =
      rows.flatten.map (·.drop 2) ++ row.map (·.drop 2) ++ [weight.drop 2] := by
    simp [last]
  rw [printed_text rows row weight last, all]
  exact scans_append (scans_append (scans_append (scans_append opened whole) front) close) rfl

/-- What the constant relies on of the hex method of fxpmath: behind 0x come the digits of the
    16-bit word. -/
def HexPrints (hex : ℤ → List Char) (z : ℤ) : Prop :=
  (literal ((hex z).drop 2)).map BitVec.toInt = some z

theorem literals_read {hex : ℤ → List Char} {zs : List ℤ} (prints : ∀ z ∈ zs, HexPrints hex z) :
    ∃ ws, (zs.map fun z => (hex z).drop 2).mapM literal = some ws ∧ ws.map BitVec.toInt = zs := by
  induction zs with
  | nil => exact ⟨[], rfl, rfl⟩
  | cons z zs ih =>
    obtain ⟨ws, read, words⟩ := ih fun z member => prints z (by simp [member])
    obtain ⟨word, first, same⟩ := Option.map_eq_some_iff.mp (prints z (by simp))
    refine ⟨word :: ws, ?_, by rw [List.map_cons, same, words]⟩
    rw [List.map_cons, List.mapM_cons, first, read]
    rfl

theorem npFlip_flatten {α : Type*} (rows : List (List α)) :
    (npFlip rows).flatten.reverse = rows.flatten := by
  rw [List.reverse_flatten, npFlip, List.map_map, ← List.map_reverse, List.reverse_reverse]
  simp

theorem npFlip_map {α β : Type*} (f : α → β) (rows : List (List α)) :
    npFlip (rows.map (·.map f)) = (npFlip rows).map (·.map f) := by
  simp [npFlip, Function.comp_def]

theorem constant_read {F : List (List ℤ)} {h w : ℕ} (shape : Shape F h w) (hh : 0 < h) (hw : 0 < w)
    {hex : ℤ → List Char} (prints : ∀ z ∈ F.flatten, HexPrints hex z) :
    ∃ constant : Vector FixedPoint (h * w),
      readConstant (h * w) (weightsToVHDL (F.map (·.map hex))) = some constant ∧
      ∀ i (hi : i < h * w), cell F (i / w) (i % w) = some constant[i].toInt := by
  have flipped : ∀ z ∈ (npFlip F).flatten, HexPrints hex z := by
    intro z member
    rw [← List.mem_reverse, npFlip_flatten] at member
    exact prints z member
  have printed : Scans Reader.next .opening (weightsToVHDL (F.map (·.map hex)))
      (.finished ((npFlip F).flatten.map fun z => (hex z).drop 2)) := by
    have pieces : (npFlip F).flatten.map (fun z => (hex z).drop 2) =
        (npFlip (F.map (·.map hex))).flatten.map (·.drop 2) := by
      rw [npFlip_map, ← List.map_flatten, List.map_map]
      rfl
    rw [pieces]
    apply reads_printed
    · intro empty
      have size := congrArg List.length empty
      simp [npFlip, shape.height] at size
      omega
    · intro row member
      simp only [npFlip, List.mem_map, List.mem_reverse] at member
      obtain ⟨line, ⟨entries, inside, rfl⟩, rfl⟩ := member
      have width := shape.width entries inside
      apply List.ne_nil_of_length_pos
      rw [List.length_reverse, List.length_map, width]
      exact hw
    · intro row member weight inside
      rw [npFlip_map, List.mem_map] at member
      obtain ⟨line, here, rfl⟩ := member
      obtain ⟨z, entry, rfl⟩ := List.mem_map.mp inside
      obtain ⟨word, reads, _⟩ := Option.map_eq_some_iff.mp
        (flipped z (List.mem_flatten.mpr ⟨line, here, entry⟩))
      exact literal_unquoted reads
  obtain ⟨ws, read, words⟩ := literals_read flipped
  have entries : ws.reverse.map BitVec.toInt = F.flatten := by
    rw [List.map_reverse, words, npFlip_flatten]
  have size : ws.length = h * w := by
    rw [← flatten_length shape, ← entries, List.length_map, List.length_reverse]
  refine ⟨⟨ws.reverse.toArray, by simp [size]⟩, ?_, ?_⟩
  · have literals : readLiterals (weightsToVHDL (F.map (·.map hex))) = some ws := by
      unfold Scans at printed
      unfold readLiterals
      rw [printed]
      exact read
    unfold readConstant
    rw [literals, Option.bind_some, dif_pos size]
  · intro i hi
    have here := flatten_get shape.width (i / w) (split_pair hi).2
    rw [Nat.mul_comm, Nat.div_add_mod, ← entries, List.getElem?_map] at here
    rw [← here]
    simp [size, hi]

end Printed

end Aggregate
end CnnAccelerator
