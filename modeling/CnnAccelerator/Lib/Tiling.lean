import Mathlib.Algebra.BigOperators.Fin
import Mathlib.Data.List.Perm.Basic
import Mathlib.Data.Multiset.Bind

/- Tables as lists of rows of one width. Cells are counted row by row, or tile by tile. -/
namespace Tiling
variable {α β : Type*}

structure Shape (rows : List (List α)) (h w : ℕ) : Prop where
  height : rows.length = h
  width : ∀ row ∈ rows, row.length = w

def cell (rows : List (List α)) (i j : ℕ) : Option α := rows[i]?.bind (·[j]?)

theorem shape_map {rows : List (List α)} {h w : ℕ} (shape : Shape rows h w) (f : α → β) :
    Shape (rows.map (·.map f)) h w where
  height := by rw [List.length_map, shape.height]
  width := by
    intro row member
    obtain ⟨line, inside, rfl⟩ := List.mem_map.mp member
    rw [List.length_map, shape.width line inside]

theorem shape_rows {rows : List (List α)} {h w : ℕ} (shape : Shape rows h w) (some_row : 0 < h) :
    rows ≠ [] := by
  apply List.ne_nil_of_length_pos
  rw [shape.height]
  exact some_row

theorem shape_entries {rows : List (List α)} {h w : ℕ} (shape : Shape rows h w) (wide : 0 < w) :
    ∀ row ∈ rows, row ≠ [] := by
  intro row member
  apply List.ne_nil_of_length_pos
  rw [shape.width row member]
  exact wide

theorem div_pair {b j : ℕ} (hj : j < b) (i : ℕ) : (i * b + j) / b = i ∧ (i * b + j) % b = j := by
  constructor
  · rw [Nat.mul_comm, Nat.mul_add_div (by omega), Nat.div_eq_of_lt hj, Nat.add_zero]
  · rw [Nat.mul_comm, Nat.mul_add_mod, Nat.mod_eq_of_lt hj]

theorem split_pair {R C k : ℕ} (hk : k < R * C) : k / C < R ∧ k % C < C := by
  have pos : 0 < C := Nat.pos_of_mul_pos_left (Nat.zero_lt_of_lt hk)
  exact ⟨(Nat.div_lt_iff_lt_mul pos).mpr hk, Nat.mod_lt k pos⟩

theorem pair_lt {R C i j : ℕ} (hi : i < R) (hj : j < C) : i * C + j < R * C := by
  have step := Nat.mul_le_mul_right C hi
  rw [Nat.succ_mul] at step
  omega

theorem flatten_length {rows : List (List α)} {h w : ℕ} (shape : Shape rows h w) :
    rows.flatten.length = h * w := by
  obtain ⟨height, width⟩ := shape
  induction rows generalizing h with
  | nil => simp [← height]
  | cons row rows ih =>
    have rest := ih rfl fun row member => width row (by simp [member])
    rw [List.flatten_cons, List.length_append, rest, width row (by simp), ← height,
      List.length_cons, Nat.succ_mul, Nat.add_comm]

theorem flatten_get {rows : List (List α)} {w : ℕ} (width : ∀ row ∈ rows, row.length = w) (i : ℕ)
    {j : ℕ} (hj : j < w) : rows.flatten[i * w + j]? = cell rows i j := by
  unfold cell
  induction rows generalizing i with
  | nil => simp
  | cons row rows ih =>
    have first := width row (by simp)
    rw [List.flatten_cons]
    cases i with
    | zero =>
      rw [List.getElem?_append_left (by omega)]
      simp
    | succ i =>
      have later := ih (fun row member => width row (by simp [member])) i
      rw [Nat.succ_mul, List.getElem?_append_right (by omega),
        show i * w + w + j - row.length = i * w + j by omega, later]
      simp

/- Ranges of products, split with the second factor running faster. -/

theorem range_mul (a b : ℕ) : List.range (a * b) =
    (List.range a).flatMap fun i => (List.range b).map fun j => i * b + j := by
  induction a with
  | zero => simp
  | succ a ih => simp [Nat.succ_mul, List.range_add, List.range_succ, List.flatMap_append, ih]

theorem map_range_mul (f : ℕ → β) (a b : ℕ) : (List.range (a * b)).map f =
    (List.range a).flatMap fun i => (List.range b).map fun j => f (i * b + j) := by
  rw [range_mul, List.map_flatMap]
  simp only [List.map_map, Function.comp_def]

theorem flatMap_range_mul (f : ℕ → List β) (a b : ℕ) : (List.range (a * b)).flatMap f =
    (List.range a).flatMap fun i => (List.range b).flatMap fun j => f (i * b + j) := by
  rw [range_mul, List.flatMap_assoc]
  simp only [List.flatMap_map]

theorem flatMap_swap {γ : Type*} (xs : List α) (ys : List β) (f : α → β → List γ) :
    (xs.flatMap fun x => ys.flatMap fun y => f x y).Perm
      (ys.flatMap fun y => xs.flatMap fun x => f x y) := by
  have swap := Multiset.bind_bind (xs : Multiset α) (ys : Multiset β)
    (f := fun x y => (f x y : Multiset γ))
  simp only [Multiset.coe_bind] at swap
  exact Multiset.coe_eq_coe.mp swap

def table (h w : ℕ) (f : ℕ → ℕ → α) : List (List α) :=
  (List.range h).map fun i => (List.range w).map fun j => f i j

theorem table_shape (h w : ℕ) (f : ℕ → ℕ → α) : Shape (table h w f) h w where
  height := by simp [table]
  width := by
    intro row member
    obtain ⟨i, _, rfl⟩ := List.mem_map.mp member
    simp

theorem table_cell {h w i j : ℕ} (f : ℕ → ℕ → α) (hi : i < h) (hj : j < w) :
    cell (table h w f) i j = some (f i j) := by
  simp [cell, table, hi, hj]

theorem table_flatten (h w : ℕ) (f : ℕ → ℕ → α) :
    (table h w f).flatten = (List.range (h * w)).map fun n => f (n / w) (n % w) := by
  rw [map_range_mul, table, ← List.flatMap_def]
  apply List.flatMap_congr
  intro i _
  apply List.map_congr_left
  intro j member
  obtain ⟨div, mod⟩ := div_pair (List.mem_range.mp member) i
  rw [div, mod]

/-- A table read tile by tile has the cells of the table, each once. -/
theorem tiles_perm (f : ℕ → ℕ → β) (R C a b : ℕ) :
    ((List.range (R * C)).flatMap fun k => (List.range a).flatMap fun r =>
      (List.range b).map fun c => f (k / C * a + r) (k % C * b + c)).Perm
    ((List.range (R * a)).flatMap fun i => (List.range (C * b)).map fun j => f i j) := by
  rw [flatMap_range_mul, flatMap_range_mul]
  simp only [map_range_mul]
  apply List.Perm.flatMap_left
  intro p _
  have tiles : ((List.range C).flatMap fun q => (List.range a).flatMap fun r =>
      (List.range b).map fun c => f ((p * C + q) / C * a + r) ((p * C + q) % C * b + c)) =
      (List.range C).flatMap fun q => (List.range a).flatMap fun r =>
        (List.range b).map fun c => f (p * a + r) (q * b + c) := by
    apply List.flatMap_congr
    intro q member
    obtain ⟨div, mod⟩ := div_pair (List.mem_range.mp member) p
    rw [div, mod]
  rw [tiles]
  exact flatMap_swap _ _ _

theorem flatten_cells {rows : List (List α)} {h w : ℕ} (shape : Shape rows h w) :
    rows.flatten.map some = (List.range h).flatMap fun i => (List.range w).map fun j =>
      cell rows i j := by
  have cells : rows.flatten.map some =
      (List.range (h * w)).map fun n => cell rows (n / w) (n % w) := by
    apply List.ext_getElem
    · rw [List.length_map, flatten_length shape, List.length_map, List.length_range]
    · intro n left right
      have inside : n < h * w := by simpa using right
      have here := flatten_get shape.width (n / w) (split_pair inside).2
      rw [Nat.mul_comm, Nat.div_add_mod] at here
      rw [List.getElem_map, List.getElem_map, List.getElem_range, ← here,
        ← List.getElem?_eq_getElem]
  rw [cells, map_range_mul]
  apply List.flatMap_congr
  intro i _
  apply List.map_congr_left
  intro j member
  obtain ⟨div, mod⟩ := div_pair (List.mem_range.mp member) i
  rw [div, mod]

/-- A sum over a table in the order of its flattened cells. -/
theorem sum_cells [AddCommMonoid β] (f : ℕ → ℕ → β) (a b : ℕ) :
    ∑ i : Fin (a * b), f (i / b) (i % b) = ∑ r : Fin a, ∑ c : Fin b, f r c := by
  rw [← Fintype.sum_prod_type' fun (r : Fin a) (c : Fin b) => f r c]
  symm
  apply Fintype.sum_equiv finProdFinEquiv
  rintro ⟨r, c⟩
  obtain ⟨div, mod⟩ := div_pair c.isLt r.val
  have index : (finProdFinEquiv (r, c)).val = r * b + c := by
    rw [finProdFinEquiv_apply_val, Nat.mul_comm, Nat.add_comm]
  rw [index, div, mod]

/-- A table filled row by row by two nested loops. -/
theorem fill_rows (f : ℕ → ℕ → β) (R C : ℕ) (table : List β) (len : table.length = R * C) :
    (List.range R).foldl (fun t i => (List.range C).foldl
      (fun t j => t.set (i * C + j) (f i j)) t) table =
    (List.range (R * C)).map fun n => f (n / C) (n % C) := by
  have fill (m : ℕ) (hm : m ≤ table.length) :
      (List.range m).foldl (fun t n => t.set n (f (n / C) (n % C))) table =
        ((List.range m).map fun n => f (n / C) (n % C)) ++ table.drop m := by
    induction m with
    | zero => simp
    | succ m ih =>
      rw [List.range_succ, List.foldl_append, ih (by omega), List.map_append]
      simp only [List.foldl_cons, List.foldl_nil, List.map_cons, List.map_nil]
      rw [List.set_append_right _ _ (by simp), List.length_map, List.length_range, Nat.sub_self,
        List.drop_eq_getElem_cons (by omega), List.set_cons_zero, List.append_assoc]
      rfl
  have all := fill (R * C) (by omega)
  rw [range_mul, List.foldl_flatMap, ← range_mul, ← len, List.drop_length, List.append_nil, len]
    at all
  rw [← all]
  apply List.foldl_ext
  intro t i _
  rw [List.foldl_map]
  apply List.foldl_ext
  intro t j member
  obtain ⟨div, mod⟩ := div_pair (List.mem_range.mp member) i
  rw [div, mod]

end Tiling
