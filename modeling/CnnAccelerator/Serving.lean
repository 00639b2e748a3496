import CnnAccelerator.TransferLog

/- How long a transfer takes depends on the memory alone: on the cycles in which it stalls a
   command and on those in which it delivers. -/
namespace CnnAccelerator.Dma
open Clocked

def In.master (i : In) : MasterIn := ⟨i.readdatavalid, i.readdata, i.waitrequest⟩

/-- What the memory gives a transfer of `len` words that has `n` of them: the words to come
    and the cycles left over after the last. `none` if the transfer is not over by then. -/
def takes (k : Kind) (len : ℕ) :
    Phase → ℕ → List MasterIn → Option (List FixedPoint × List MasterIn)
  | _, _, [] => none
  | .start, n, _ :: ms => takes k len .wait n ms
  | .wait, n, m :: ms => takes k len (if m.waitrequest then .wait else .read) n ms
  | .read, n, m :: ms =>
    if m.readdatavalid then
      if n + 1 = len then some ([m.readdata], ms)
      else (takes k len (if (n + 1) % k.burstSize = 0 then .start else .read) (n + 1) ms).map
        fun t => (m.readdata :: t.1, t.2)
    else takes k len .read n ms

theorem takes_cons (k : Kind) (len : ℕ) (p : Phase) (ws : List FixedPoint) {r : Dma}
    (state : r.state = .burst k p) (i : In) (ms : List MasterIn)
    (goes : ¬ (p = .read ∧ i.readdatavalid ∧ ws.length + 1 = len)) :
    takes k len p ws.length (i.master :: ms) =
      (takes k len (nextPhase k p ws.length i) (store ws r i).length ms).map
        fun t => ((if r.stores i then [i.readdata] else []) ++ t.1, t.2) := by
  cases p with
  | start => simp [takes, nextPhase, store, stores, state]
  | wait =>
    cases go : i.waitrequest <;> simp [takes, nextPhase, store, stores, state, In.master, go]
  | read =>
    cases valid : i.readdatavalid with
    | false => simp [takes, nextPhase, store, stores, state, In.master, valid]
    | true =>
      have more : ws.length + 1 ≠ len := by simpa [valid] using goes
      simp [takes, nextPhase, store, stores, state, In.master, valid, more]

theorem takes_none {r : Dma} {k : Kind} {p : Phase} {base len : BitVec 32} {g : Log}
    (h : r.Busy k p base len g.words) (fits : 0 < len.toNat ∧ len.toNat ≤ 2 ^ 17)
    {ins : List In} (short : takes k len.toNat p g.words.length (ins.map In.master) = none) :
    ∃ p', (run am r ins).Busy k p' base len (log.watch am g r ins).words ∧
      (log.watch am g r ins).done = g.done := by
  induction ins generalizing r p g with
  | nil => exact ⟨p, h, rfl⟩
  | cons i ins ih =>
    rcases busy_step h i with ⟨next, goes⟩ | ⟨done, rfl, valid, last⟩
    · have unended : ¬ (p = .read ∧ i.readdatavalid ∧ g.words.length + 1 = len.toNat) := by
        rintro ⟨reading, valid, last⟩
        exact goes ⟨reading, valid, last.symm, by omega, by omega⟩
      rw [List.map_cons, takes_cons k _ p g.words h.state i _ unended, Option.map_eq_none_iff]
        at short
      have kept := log_busy g i h.state next.state
      obtain ⟨p', busy, done⟩ := ih (g := log.next g r i) (by rw [kept]; exact next)
        (by rw [kept]; exact short)
      exact ⟨p', busy, by rw [Monitor.watch_cons, done, kept]⟩
    · simp [takes, In.master, valid, last.1] at short

theorem takes_some {r : Dma} {k : Kind} {p : Phase} {base len : BitVec 32} {g : Log}
    (h : r.Busy k p base len g.words) (fits : 0 < len.toNat ∧ len.toNat ≤ 2 ^ 17)
    {ins : List In} {us : List FixedPoint} {rest : List MasterIn}
    (enough : takes k len.toNat p g.words.length (ins.map In.master) = some (us, rest)) :
    ∃ pre post, ins = pre ++ post ∧ post.map In.master = rest ∧
      (run am r pre).Done k len (g.words ++ us) ∧
      log.watch am g r pre = ⟨[], g.done ++ [⟨k, g.words ++ us⟩]⟩ := by
  induction ins generalizing r p g us with
  | nil => simp [takes] at enough
  | cons i ins ih =>
    rcases busy_step h i with ⟨next, goes⟩ | ⟨done, rfl, valid, last⟩
    · have unended : ¬ (p = .read ∧ i.readdatavalid ∧ g.words.length + 1 = len.toNat) := by
        rintro ⟨reading, valid, last⟩
        exact goes ⟨reading, valid, last.symm, by omega, by omega⟩
      rw [List.map_cons, takes_cons k _ p g.words h.state i _ unended, Option.map_eq_some_iff]
        at enough
      obtain ⟨⟨vs, rest'⟩, later, eq⟩ := enough
      obtain ⟨rfl, rfl⟩ := Prod.mk.inj eq
      have kept := log_busy g i h.state next.state
      have words : (log.next g r i).words ++ vs =
          g.words ++ ((if r.stores i then [i.readdata] else []) ++ vs) := by
        rw [kept]
        unfold store
        split <;> simp
      obtain ⟨pre, post, rfl, cycles, ended, watched⟩ := ih (g := log.next g r i)
        (by rw [kept]; exact next) (by rw [kept]; exact later)
      refine ⟨i :: pre, post, rfl, cycles, ?_, ?_⟩
      · rw [← words]
        exact ended
      · rw [Monitor.watch_cons, watched, words, kept]
    · simp only [List.map_cons, takes, In.master, valid, last.1, ↓reduceIte, Option.some.injEq,
        Prod.mk.injEq] at enough
      obtain ⟨rfl, rfl⟩ := enough
      have kept := store_word h.state valid g.words
      refine ⟨[i], ins, rfl, rfl, ?_, ?_⟩
      · rw [← kept]
        exact done
      · rw [Monitor.watch_cons, Monitor.watch_nil, log_done g i h.state done.state, kept]

theorem takes_more {k : Kind} {len : ℕ} {p : Phase} {n : ℕ} {ms rest : List MasterIn}
    {us : List FixedPoint} (enough : takes k len p n ms = some (us, rest)) (more : List MasterIn) :
    takes k len p n (ms ++ more) = some (us, rest ++ more) := by
  induction ms generalizing p n us with
  | nil => simp [takes] at enough
  | cons m ms ih =>
    rw [List.cons_append]
    cases p with
    | start => exact ih enough
    | wait => exact ih enough
    | read =>
      simp only [takes] at enough ⊢
      split at enough
      · split at enough
        · rename_i valid last
          obtain ⟨rfl, rfl⟩ := Prod.mk.inj (Option.some.inj enough)
          rw [if_pos valid, if_pos last]
        · rename_i valid unended
          obtain ⟨⟨vs, rest'⟩, some, eq⟩ := Option.map_eq_some_iff.mp enough
          obtain ⟨rfl, rfl⟩ := Prod.mk.inj eq
          rw [if_pos valid, if_neg unended, ih some]
          rfl
      · rename_i gap
        rw [if_neg gap]
        exact ih enough

end CnnAccelerator.Dma
