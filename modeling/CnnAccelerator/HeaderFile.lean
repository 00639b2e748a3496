import CnnAccelerator.Layout
import CnnAccelerator.Lib.Scan

/- The arrays of nn_weights.c and test_image.c: what the notebook prints for them, and a C
   array definition read from its text. -/
namespace CnnAccelerator
open Scan Aggregate Tiling

namespace Notebook

/-- outputStr += f'{val}, ' -/
def valText (val : List Char) : List Char := val ++ [',', ' ']

/-- static uint16_t varName[] =, up to the brace. -/
def declaration (varName : List Char) : List Char :=
  ['s', 't', 'a', 't', 'i', 'c', ' ', 'u', 'i', 'n', 't', '1', '6', '_', 't', ' '] ++ varName ++
    ['[', ']', ' ', '=', ' ']

def valsToHFile (listVals : List (List (List Char))) (varName : List Char) : List Char :=
  let outputStr := listVals.foldl (fun outputStr row =>
    row.foldl (fun outputStr val => outputStr ++ valText val) outputStr ++ ['\n', ' '])
    (declaration varName ++ ['{', '\n'])
  outputStr.take (outputStr.length - 4) ++ ['\n', '}', ';']

end Notebook

namespace HeaderFile
open Notebook

inductive Reader where
  | value (read : List (List Char)) (cs : List Char)
  | gap (read : List (List Char))
  | closing (read : List (List Char))
  | finished (read : List (List Char))
  deriving DecidableEq, Repr

def Reader.next : Reader → Char → Option Reader
  | .value read cs, c =>
    if c = ',' then some (.value (read ++ [cs]) [])
    else if c = '}' then some (.closing (if cs = [] then read else read ++ [cs]))
    else if blank c then some (if cs = [] then .value read [] else .gap (read ++ [cs]))
    else some (.value read (cs ++ [c]))
  | .gap read, c =>
    if c = ',' then some (.value read []) else if c = '}' then some (.closing read)
    else if blank c then some (.gap read) else none
  | .closing read, c =>
    if c = ';' then some (.finished read) else if blank c then some (.closing read) else none
  | .finished read, c => if blank c then some (.finished read) else none

def constant : List Char → Option FixedPoint
  | '0' :: 'x' :: d :: ds =>
    ((d :: ds).mapM hexDigit).map fun ns => BitVec.ofNat 16 (ns.foldl (fun n m => n * 16 + m) 0)
  | _ => none

/-- What stands before the brace, and the words of the array. -/
def readArray (text : List Char) : Option (List Char × List FixedPoint) :=
  match (text.dropWhile (· ≠ '{')).tail.foldlM Reader.next (.value [] []) with
  | some (.finished read) => (read.mapM constant).map (text.takeWhile (· ≠ '{'), ·)
  | _ => none

def Plain (c : Char) : Prop := c ≠ ',' ∧ c ≠ '}' ∧ blank c = false

theorem hexDigit_plain {c : Char} {n : ℕ} (digit : hexDigit c = some n) : Plain c := by
  refine ⟨?_, ?_, ?_⟩
  · rintro rfl
    contradiction
  · rintro rfl
    contradiction
  · unfold blank
    by_contra other
    simp only [Bool.or_eq_true, decide_eq_true_eq, Bool.not_eq_false,
      or_assoc] at other
    rcases other with rfl | rfl | rfl
    · contradiction
    · contradiction
    · contradiction

theorem digits_plain {ds : List Char} {ns : List ℕ} (digits : ds.mapM hexDigit = some ns) :
    ∀ c ∈ ds, Plain c := by
  induction ds generalizing ns with
  | nil => simp
  | cons d ds ih =>
    rw [List.mapM_cons] at digits
    obtain ⟨n, first, rest⟩ := Option.bind_eq_some_iff.mp digits
    obtain ⟨ms, later, _⟩ := Option.bind_eq_some_iff.mp rest
    intro c member
    rcases List.mem_cons.mp member with here | there
    · rw [here]
      exact hexDigit_plain first
    · exact ih later c there

theorem constant_plain {cs : List Char} {word : FixedPoint} (reads : constant cs = some word) :
    cs ≠ [] ∧ ∀ c ∈ cs, Plain c := by
  unfold constant at reads
  split at reads
  · rename_i d ds
    obtain ⟨ns, digits, _⟩ := Option.map_eq_some_iff.mp reads
    refine ⟨by simp, fun c member => ?_⟩
    rcases List.mem_cons.mp member with zero | tail
    · rw [zero]
      exact ⟨by decide, by decide, by decide⟩
    · rcases List.mem_cons.mp tail with x | digit
      · rw [x]
        exact ⟨by decide, by decide, by decide⟩
      · exact digits_plain digits c digit
  · contradiction

theorem scans_constant {cs : List Char} (plain : ∀ c ∈ cs, Plain c) (read : List (List Char)) :
    Scans Reader.next (.value read []) cs (.value read cs) := by
  apply scans_collect (Reader.value read) _ []
  intro c member front
  obtain ⟨comma, brace, solid⟩ := plain c member
  rw [Reader.next, if_neg comma, if_neg brace, if_neg (by simp [solid])]

theorem scans_val {val : List Char} (plain : ∀ c ∈ val, Plain c) (read : List (List Char)) :
    Scans Reader.next (.value read []) (valText val) (.value (read ++ [val]) []) :=
  scans_append (scans_constant plain read) rfl

def rowText (row : List (List Char)) : List Char := row.flatMap valText ++ ['\n', ' ']

theorem scans_row (row : List (List Char)) (plain : ∀ val ∈ row, ∀ c ∈ val, Plain c)
    (read : List (List Char)) :
    Scans Reader.next (.value read []) (row.flatMap valText) (.value (read ++ row) []) := by
  have pieces := scans_flatMap (Reader.value · []) valText (fun val => [val])
    (fun val member => scans_val (plain val member)) read
  rwa [List.flatMap_singleton'] at pieces

theorem scans_rows (rows : List (List (List Char)))
    (plain : ∀ row ∈ rows, ∀ val ∈ row, ∀ c ∈ val, Plain c) (read : List (List Char)) :
    Scans Reader.next (.value read []) (rows.flatMap rowText)
      (.value (read ++ rows.flatten) []) := by
  have pieces := scans_flatMap (Reader.value · []) rowText id (fun row member => by
      intro read
      exact scans_append (scans_row row (plain row member) read) rfl) read
  rwa [List.flatMap_id] at pieces

/-- The last constant ends at the line break, which the four characters cut off leave room for. -/
theorem scans_last {val : List Char} (solid : val ≠ []) (plain : ∀ c ∈ val, Plain c)
    (read : List (List Char)) :
    Scans Reader.next (.value read []) (val ++ ['\n', '}', ';']) (.finished (read ++ [val])) := by
  have gap : Reader.next (.value read val) '\n' = some (.gap (read ++ [val])) := by
    simp [Reader.next, blank, solid]
  exact scans_append (scans_constant plain read) (scans_cons gap rfl)

theorem printed_text (name : List Char) {hexed : List (List (List Char))}
    (rows : List (List (List Char))) (row : List (List Char)) (val : List Char)
    (last : hexed = rows ++ [row ++ [val]]) :
    valsToHFile hexed name = declaration name ++ '{' :: (['\n'] ++ rows.flatMap rowText ++
      row.flatMap valText ++ (val ++ ['\n', '}', ';'])) := by
  have loops : hexed.foldl (fun outputStr row =>
      row.foldl (fun outputStr val => outputStr ++ valText val) outputStr ++ ['\n', ' '])
      (declaration name ++ ['{', '\n']) = declaration name ++ '{' :: (['\n'] ++
        rows.flatMap rowText ++ row.flatMap valText ++ val) ++ [',', ' ', '\n', ' '] := by
    rw [last]
    unfold rowText valText
    simp [List.flatMap_def]
  unfold valsToHFile
  simp only [loops]
  rw [List.length_append, List.length_cons, List.length_cons, List.length_cons, List.length_cons,
    List.length_nil, Nat.add_sub_cancel, List.take_left]
  simp

theorem declaration_open {name : List Char} (named : '{' ∉ name) :
    ∀ c ∈ declaration name, (c ≠ '{' : Bool) = true := by
  intro c member
  have other : c ≠ '{' := by
    rintro rfl
    unfold declaration at member
    simp [named] at member
  simpa using other

theorem read_declared {name text : List Char} (named : '{' ∉ name) {read : List (List Char)}
    (scans : Scans Reader.next (.value [] []) text (.finished read)) :
    readArray (declaration name ++ '{' :: text) =
      (read.mapM constant).map (declaration name, ·) := by
  have front := declaration_open named
  have before : (declaration name ++ '{' :: text).takeWhile (· ≠ '{') = declaration name := by
    rw [List.takeWhile_append_of_pos front]
    simp
  have after : (declaration name ++ '{' :: text).dropWhile (· ≠ '{') = '{' :: text := by
    rw [List.dropWhile_append_of_pos front]
    simp
  unfold readArray
  rw [before, after, List.tail_cons]
  unfold Scans at scans
  rw [scans]

/-- What an array relies on of the hex method of fxpmath: a C constant of the 16-bit word. -/
def HexConstant (hex : ℤ → List Char) (z : ℤ) : Prop :=
  (constant (hex z)).map BitVec.toInt = some z

theorem constants_read {hex : ℤ → List Char} {zs : List ℤ}
    (prints : ∀ z ∈ zs, HexConstant hex z) :
    ∃ ws, (zs.map hex).mapM constant = some ws ∧ ws.map BitVec.toInt = zs := by
  induction zs with
  | nil => exact ⟨[], rfl, rfl⟩
  | cons z zs ih =>
    obtain ⟨ws, read, words⟩ := ih fun z member => prints z (by simp [member])
    obtain ⟨word, first, same⟩ := Option.map_eq_some_iff.mp (prints z (by simp))
    refine ⟨word :: ws, ?_, by rw [List.map_cons, same, words]⟩
    rw [List.map_cons, List.mapM_cons, first, read]
    rfl

theorem array_read {hex : ℤ → List Char} {name : List Char} {zs : List (List ℤ)}
    (named : '{' ∉ name) (rows : zs ≠ []) (wide : ∀ row ∈ zs, row ≠ [])
    (prints : ∀ z ∈ zs.flatten, HexConstant hex z) :
    ∃ ws, readArray (valsToHFile (zs.map (·.map hex)) name) = some (declaration name, ws) ∧
      ws.map BitVec.toInt = zs.flatten := by
  have solid (z : ℤ) (member : z ∈ zs.flatten) : hex z ≠ [] ∧ ∀ c ∈ hex z, Plain c := by
    obtain ⟨word, reads, _⟩ := Option.map_eq_some_iff.mp (prints z member)
    exact constant_plain reads
  obtain ⟨front, final, rfl⟩ := (List.eq_nil_or_concat zs).resolve_left rows
  rw [List.concat_eq_append] at *
  obtain ⟨row, z, rfl⟩ := (List.eq_nil_or_concat final).resolve_left (wide final (by simp))
  rw [List.concat_eq_append] at *
  obtain ⟨ws, read, words⟩ := constants_read prints
  refine ⟨ws, ?_, words⟩
  have final : (front ++ [row ++ [z]]).map (·.map hex) =
      front.map (·.map hex) ++ [row.map hex ++ [hex z]] := by
    simp
  have printed := printed_text name _ _ _ final
  have opened : Scans Reader.next (.value [] []) ['\n'] (.value [] []) := rfl
  have whole := scans_rows (front.map (·.map hex)) (fun line here val inside => by
    obtain ⟨entries, member, rfl⟩ := List.mem_map.mp here
    obtain ⟨y, entry, rfl⟩ := List.mem_map.mp inside
    exact (solid y (List.mem_flatten.mpr ⟨entries, by simp [member], entry⟩)).2) []
  have most := scans_row (row.map hex) (fun val inside => by
    obtain ⟨y, entry, rfl⟩ := List.mem_map.mp inside
    exact (solid y (by simp [entry])).2) ([] ++ (front.map (·.map hex)).flatten)
  have last := scans_last (solid z (by simp)).1 (solid z (by simp)).2
    ([] ++ (front.map (·.map hex)).flatten ++ row.map hex)
  rw [printed, read_declared named (scans_append (scans_append (scans_append opened whole) most)
    last)]
  have all : [] ++ (front.map (·.map hex)).flatten ++ row.map hex ++ [hex z] =
      ((front ++ [row ++ [z]]).flatten).map hex := by
    simp [List.map_flatten]
  rw [all, read]
  rfl

theorem hexDigit_hexChar {n : ℕ} (digit : n < 16) : hexDigit (hexChar n) = some n := by
  revert n
  decide

theorem fxpHex_constant {z : ℤ} (low : -32768 ≤ z) (high : z ≤ 32767) : HexConstant fxpHex z := by
  have digit (n : ℕ) : hexDigit (hexChar (n % 16)) = some (n % 16) :=
    hexDigit_hexChar (Nat.mod_lt n (by decide))
  have word : constant (fxpHex z) = some (BitVec.ofNat 16 (z % 65536).toNat) := by
    unfold constant fxpHex
    simp only [List.mapM_cons, List.mapM_nil, digit]
    change some (BitVec.ofNat 16 ((((0 * 16 + (z % 65536).toNat / 4096 % 16) * 16 +
      (z % 65536).toNat / 256 % 16) * 16 + (z % 65536).toNat / 16 % 16) * 16 +
      (z % 65536).toNat % 16)) = _
    congr 2
    omega
  have same : BitVec.ofNat 16 (z % 65536).toNat = BitVec.ofInt 16 z := by
    apply BitVec.eq_of_toNat_eq
    rw [BitVec.toNat_ofNat, BitVec.toNat_ofInt]
    omega
  unfold HexConstant
  rw [word, same, Option.map_some, word_ofInt low high]

/-- The array that a program is given for some rows has the elements of the VHDL constant that a
    test bench is given for them, index by index, and they are the values row by row. -/
theorem exports_agree {hex : ℤ → List Char} {varName : List Char} (named : '{' ∉ varName)
    {zs : List (List ℤ)} {h w : ℕ} (shape : Shape zs h w) (some_row : 0 < h) (wide : 0 < w)
    (prints : ∀ z ∈ zs.flatten, HexConstant hex z ∧ HexPrints hex z) :
    ∃ ws, ∃ constant : Vector FixedPoint (h * w),
      readArray (valsToHFile (zs.map (·.map hex)) varName) = some (declaration varName, ws) ∧
      readConstant (h * w) (weightsToVHDL (zs.map (·.map hex))) = some constant ∧
      constant.toList = ws ∧ ws.map BitVec.toInt = zs.flatten := by
  obtain ⟨ws, array, words⟩ := array_read named (shape_rows shape some_row)
    (shape_entries shape wide) fun z member => (prints z member).1
  obtain ⟨constant, vhdl, cells⟩ :=
    constant_read shape some_row wide fun z member => (prints z member).2
  have size : ws.length = h * w := by
    rw [← flatten_length shape, ← words, List.length_map]
  refine ⟨ws, constant, array, vhdl, ?_, words⟩
  apply List.ext_getElem
  · rw [Vector.length_toList, size]
  · intro i hi hi'
    have inside : i < h * w := by rwa [size] at hi'
    have here := flatten_get shape.width (i / w) (split_pair inside).2
    rw [Nat.mul_comm, Nat.div_add_mod, cells i inside, ← words, List.getElem?_map,
      List.getElem?_eq_getElem hi', Option.map_some] at here
    rw [Vector.getElem_toList]
    exact (BitVec.toInt_inj.mp (Option.some.inj here)).symm

def shippedRows : List (List ℤ) := nnWeights.toList.map (·.toList.map BitVec.toInt)

theorem exports_agree_shipped : ∃ ws, ∃ constant : Vector FixedPoint 48,
    readArray (valsToHFile (shippedRows.map (·.map fxpHex)) ['n', 'n', 'W']) =
        some (declaration ['n', 'n', 'W'], ws) ∧
      readConstant 48 (weightsToVHDL (shippedRows.map (·.map fxpHex))) = some constant ∧
      constant.toList = ws ∧ ws.map BitVec.toInt = shippedRows.flatten :=
  exports_agree (h := 3) (w := 16) (by decide) ⟨by decide, by decide⟩ (by decide) (by decide)
    (by unfold HexConstant HexPrints; decide +kernel)

end HeaderFile
end CnnAccelerator
