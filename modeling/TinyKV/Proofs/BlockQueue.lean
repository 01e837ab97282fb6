import Mathlib.Data.Int.ModEq
import TinyKV.Lib.Lists
import TinyKV.Spec.BoundedFifo

/-!
# The queue of log lines is a bounded FIFO list

`Shows q f` reads the array as a ring: the item at place `i` of the list is in
the cell `i` steps after `front`, and `back` is as many steps after `front` as
there are items, up to whole turns. The two cursors need not be equal in an
empty queue, only congruent: a queue that has taken `n` items and given `n`
has `front = back = n - 1`, and one that was cleared has both at `-1`.
-/

namespace TinyKV

namespace BlockQueue

variable {T : Type} {q : BlockQueue T} {f : BoundedFifo T}

/-- The cell `i` steps after the cursor `front`. -/
def cell (front : Int) (n i : Nat) : Nat := ((front + 1 + i) % n).toNat

structure Shows (q : BlockQueue T) (f : BoundedFifo T) : Prop where
  bound_pos : 0 < f.bound
  maxSize : q.maxSize = f.bound
  length : q.array.length = f.bound
  size : q.size = f.items.length
  fits : f.items.length ≤ f.bound
  closed : q.closed = f.closed
  front_ge : -1 ≤ q.front
  back_ge : -1 ≤ q.back
  back_lt : q.back < f.bound
  back_nonneg : f.items ≠ [] → 0 ≤ q.back
  gap : q.back ≡ q.front + f.items.length [ZMOD f.bound]
  cells : ∀ i, i < f.items.length → q.array[cell q.front f.bound i]? = f.items[i]?

/-! ## Cells -/

variable {n : Nat}

theorem cell_lt (front : Int) (i : Nat) (hn : 0 < n) : cell front n i < n := by
  have hpos : (0 : Int) < n := by omega
  have hge := Int.emod_nonneg (front + 1 + i) hpos.ne'
  have hlt := Int.emod_lt_of_pos (front + 1 + i) hpos
  simp only [cell]
  omega

theorem cell_cast (front : Int) (i : Nat) (hn : 0 < n) :
    (cell front n i : Int) = (front + 1 + i) % n := by
  have hge := Int.emod_nonneg (front + 1 + i) (b := n) (by omega)
  simp only [cell]
  omega

/-- Fewer than `n` steps apart, two cells are different. -/
theorem cell_ne {i j : Nat} (front : Int) (hij : i < j) (hj : j < n) :
    cell front n i ≠ cell front n j := by
  intro heq
  have hmod : front + 1 + i ≡ front + 1 + j [ZMOD n] := by
    have hi := cell_cast front i (show 0 < n by omega)
    have hcast := cell_cast front j (show 0 < n by omega)
    simp only [Int.ModEq]
    omega
  have hdvd : (n : Int) ∣ j - i := by
    have hcancel := hmod.dvd
    rwa [add_sub_add_left_eq_sub] at hcancel
  have := Int.eq_zero_of_dvd_of_nonneg_of_lt (by omega) (by omega) hdvd
  omega

/-- The cursor after one step is the first cell, and steps from there are steps
from where it was. -/
theorem cell_advance (front : Int) (i : Nat) :
    cell ((front + 1) % n) n i = cell front n (i + 1) := by
  have hmod : (front + 1) % n + 1 + i ≡ front + 1 + (i + 1 : Nat) [ZMOD n] := by
    have := ((Int.mod_modEq (front + 1) n).add_right 1).add_right (i : Int)
    have heq : front + 1 + ((i + 1 : Nat) : Int) = front + 1 + 1 + i := by omega
    rw [heq]
    exact this
  simp only [cell, hmod.eq]

/-- The remainder of the source, for operands that are not negative. -/
theorem tmod_eq_cell {front : Int} (h : -1 ≤ front) (i : Nat) (hn : 0 < n) :
    (front + 1 + i).tmod n = cell front n i := by
  rw [cell_cast front i hn]
  exact Int.tmod_eq_emod_of_nonneg (by omega)

theorem read_cell (h : q.Shows f) {i : Nat} (hi : i < f.items.length) :
    q.read (cell q.front f.bound i : Nat) = .ok f.items[i] := by
  have hcell := h.cells i hi
  rw [List.getElem?_eq_getElem hi] at hcell
  simp [read, hcell]

/-! ## One call -/

theorem shows_create (initial : T) (hn : 0 < n) :
    ∃ q, create initial n = some q ∧ q.Shows { bound := n } := by
  refine ⟨_, if_neg (by omega), ?_⟩
  constructor <;> simp [hn]
  omega

/-- The two sides stop alike, or answer alike and go on alike. -/
inductive Alike {A : Type} :
    Except QueueStop (A × BlockQueue T) → Except QueueStop (A × BoundedFifo T) → Prop
  | stops (stop : QueueStop) : Alike (.error stop) (.error stop)
  | goes (answer : A) {q : BlockQueue T} {f : BoundedFifo T} (h : q.Shows f) :
      Alike (.ok (answer, q)) (.ok (answer, f))

theorem Alike.bind {A B : Type} {x : Except QueueStop (A × BlockQueue T)}
    {y : Except QueueStop (A × BoundedFifo T)}
    {g : A × BlockQueue T → Except QueueStop (B × BlockQueue T)}
    {k : A × BoundedFifo T → Except QueueStop (B × BoundedFifo T)} (hxy : Alike x y)
    (hgk : ∀ a q f, q.Shows f → Alike (g (a, q)) (k (a, f))) : Alike (x >>= g) (y >>= k) := by
  cases hxy with
  | stops stop => exact .stops stop
  | goes answer h => exact hgk answer _ _ h

theorem Shows.push (h : q.Shows f) (item : T) (hopen : f.closed = false)
    (hroom : f.items.length < f.bound) :
    ∃ q', q.push item = .ok (true, q') ∧ q'.Shows { f with items := f.items ++ [item] } := by
  have hpos := h.bound_pos
  have hback : (q.back + 1).tmod f.bound = cell q.front f.bound f.items.length := by
    rw [Int.tmod_eq_emod_of_nonneg (by have := h.back_ge; omega), cell_cast _ _ hpos]
    have hstep := h.gap.add_right 1
    rwa [add_right_comm] at hstep
  have hlt := cell_lt q.front f.items.length hpos
  refine ⟨{ q with
    array := q.array.set (cell q.front f.bound f.items.length) item
    back := cell q.front f.bound f.items.length, size := q.size + 1 }, ?_, ?_⟩
  · have hfull : ¬ (f.bound : Int) ≤ q.size := by rw [h.size]; omega
    simp only [BlockQueue.push, h.closed, hopen, Bool.false_eq_true, if_false, h.maxSize,
      if_neg hfull, hback, write, h.length]
    rw [if_pos (by omega)]
    rfl
  · constructor
    case bound_pos => exact hpos
    case maxSize => exact h.maxSize
    case length => simpa using h.length
    case size => simp [h.size]
    case fits => simp only [List.length_append, List.length_singleton]; omega
    case closed => exact h.closed
    case front_ge => exact h.front_ge
    case back_ge => simp only; omega
    case back_lt => simp only; omega
    case back_nonneg => intro _; simp only; omega
    case gap =>
      simp only [cell_cast _ _ hpos, List.length_append, List.length_singleton, Nat.cast_add]
      refine (Int.mod_modEq _ _).trans ?_
      rw [add_right_comm, add_assoc]
      exact Int.ModEq.refl _
    case cells =>
      intro i hi
      simp only [List.length_append, List.length_singleton] at hi
      obtain hlast | hold : i = f.items.length ∨ i < f.items.length := by omega
      · subst hlast
        simp [h.length, hlt]
      · rw [List.getElem?_append_left hold, List.getElem?_set_ne (cell_ne _ hold hroom).symm]
        exact h.cells i hold

theorem Shows.take (h : q.Shows f) {item : T} {rest : List T} (hitems : f.items = item :: rest) :
    ∃ q', q.take = .ok (some item, q') ∧ q'.Shows { f with items := rest } := by
  have hpos := h.bound_pos
  have hfront : (q.front + 1).tmod f.bound = cell q.front f.bound 0 := by
    simpa using tmod_eq_cell h.front_ge 0 hpos
  have hlt := cell_lt q.front 0 hpos
  have hsize : q.size = rest.length + 1 := by simp [h.size, hitems]
  refine ⟨{ q with front := cell q.front f.bound 0, size := q.size - 1 }, ?_, ?_⟩
  · have hread := h.cells 0 (by simp [hitems])
    have hne : ¬ (q.size = 0 ∧ q.closed = true) := by omega
    simp only [BlockQueue.take, if_neg hne, h.maxSize, hfront, read]
    rw [if_pos (by omega), Int.toNat_natCast, hread, hitems]
    rfl
  · constructor
    case bound_pos => exact hpos
    case maxSize => exact h.maxSize
    case length => exact h.length
    case size => simp [hsize]
    case fits => have := h.fits; simp only [hitems, List.length_cons] at this; simp only; omega
    case closed => exact h.closed
    case front_ge => simp only; omega
    case back_ge => exact h.back_ge
    case back_lt => exact h.back_lt
    case back_nonneg => intro _; exact h.back_nonneg (by simp [hitems])
    case gap =>
      have hgap := h.gap
      simp only [hitems, List.length_cons, Nat.cast_add, Nat.cast_one] at hgap
      refine hgap.trans ?_
      simp only [cell_cast _ _ hpos]
      have := ((Int.mod_modEq (q.front + 1 + (0 : Nat)) f.bound).add_right (rest.length : Int)).symm
      refine Int.ModEq.trans ?_ this
      rw [Nat.cast_zero, add_zero, add_assoc, add_comm (1 : Int)]
    case cells =>
      intro i (hi : i < rest.length)
      have hcell := h.cells (i + 1) (by simp only [hitems, List.length_cons]; omega)
      simp only [hitems, List.getElem?_cons_succ] at hcell
      rw [← hcell, ← cell_advance, cell_cast _ _ hpos]
      simp

theorem Shows.items_eq_nil (h : q.Shows f) : q.size = 0 ↔ f.items = [] := by
  rw [h.size, ← List.length_eq_zero_iff]
  omega

theorem Shows.ready (h : q.Shows f) : q.ready = false ↔ f.items = [] ∧ f.closed = false := by
  have hsize := h.items_eq_nil
  have hnonneg : 0 ≤ q.size := by rw [h.size]; omega
  simp only [BlockQueue.ready, Bool.or_eq_false_iff, decide_eq_false_iff_not, h.closed, ← hsize]
  exact and_congr_left fun _ => by omega

/-- What both forms of `pop` do once their wait is over. -/
theorem Shows.takes (h : q.Shows f) (hready : q.ready = true) :
    Alike (A := QueueAnswer T) (do
      let (item, q) ← q.take
      .ok (.item item, q)) (.ok (f.take.map .item id)) := by
  cases hitems : f.items with
  | nil =>
    have hclosed : q.closed = true := by
      simpa [BlockQueue.ready, h.items_eq_nil.2 hitems] using hready
    simp only [BlockQueue.take, h.items_eq_nil.2 hitems, hclosed, and_self, if_true,
      BoundedFifo.take, hitems]
    exact .goes _ h
  | cons item rest =>
    obtain ⟨q', htake, hshows⟩ := h.take hitems
    simp only [htake, BoundedFifo.take, hitems]
    exact .goes _ hshows

theorem Shows.clear (h : q.Shows f) : q.clear.Shows { f with items := [] } := by
  have hpos := h.bound_pos
  constructor
  case bound_pos => exact hpos
  case maxSize => exact h.maxSize
  case length => exact h.length
  case closed => exact h.closed
  case back_lt => simp only [BlockQueue.clear]; omega
  all_goals simp [BlockQueue.clear]

theorem Shows.close (h : q.Shows f) :
    ({ q with closed := true } : BlockQueue T).Shows { f with closed := true } :=
  { h with closed := rfl }

/-- `back` is the cell of the last item. -/
theorem Shows.back_eq (h : q.Shows f) (hn : f.items.length = n + 1) :
    q.back = cell q.front f.bound n := by
  have hpos := h.bound_pos
  have hne : f.items ≠ [] := by
    rintro hnil
    simp [hnil] at hn
  rw [cell_cast _ _ hpos, ← Int.emod_eq_of_lt (h.back_nonneg hne) h.back_lt]
  have hgap := h.gap
  rw [hn, Nat.cast_add, Nat.cast_one, add_comm (n : Int), ← add_assoc] at hgap
  exact hgap

theorem Shows.push_alike (h : q.Shows f) (item : T) :
    Alike (q.exec (.push item)) (f.exec (.push item)) := by
  by_cases hno : f.closed = true ∨ f.bound ≤ f.items.length
  · have hpush : q.push item = .ok (false, q) := by
      simp only [BlockQueue.push, h.closed, h.maxSize, h.size, Int.ofNat_le]
      obtain hclosed | hfull := hno
      · simp [hclosed]
      · simp [hfull]
    simp only [BlockQueue.exec, BoundedFifo.exec, hpush, if_pos hno]
    exact .goes _ h
  · obtain ⟨hopen, hroom⟩ := not_or.1 hno
    obtain ⟨q', hpush, hshows⟩ := h.push item (Bool.not_eq_true _ ▸ hopen) (by omega)
    simp only [BlockQueue.exec, BoundedFifo.exec, hpush, if_neg hno]
    exact .goes _ hshows

theorem Shows.front_alike (h : q.Shows f) : Alike (q.exec .front) (f.exec .front) := by
  simp only [BlockQueue.exec, BoundedFifo.exec, h.items_eq_nil]
  split
  · next hempty =>
    simp only [hempty, List.head?_nil]
    exact .goes _ h
  · next hne =>
    have hpos : 0 < f.items.length := List.length_pos_iff.2 hne
    have hcell := tmod_eq_cell h.front_ge 0 h.bound_pos
    rw [Nat.cast_zero, add_zero] at hcell
    rw [h.maxSize, hcell, read_cell h hpos, List.head?_eq_getElem?,
      List.getElem?_eq_getElem hpos]
    exact .goes _ h

theorem Shows.back_alike (h : q.Shows f) : Alike (q.exec .back) (f.exec .back) := by
  simp only [BlockQueue.exec, BoundedFifo.exec, h.items_eq_nil]
  split
  · next hempty =>
    simp only [hempty, List.getLast?_nil]
    exact .goes _ h
  · next hne =>
    have hpos : 0 < f.items.length := List.length_pos_iff.2 hne
    have hback := h.back_eq (n := f.items.length - 1) (by omega)
    rw [hback, read_cell h (by omega), List.getLast?_eq_getElem?,
      List.getElem?_eq_getElem (by omega)]
    exact .goes _ h

theorem exec_alike (h : q.Shows f) (call : QueueCall T) : Alike (q.exec call) (f.exec call) := by
  cases call with
  | push item => exact h.push_alike item
  | pop =>
    simp only [BlockQueue.exec, BoundedFifo.exec, ← h.ready]
    cases hready : q.ready with
    | false => exact .stops _
    | true => exact h.takes hready
  | timedPop =>
    simp only [BlockQueue.exec, BoundedFifo.exec]
    cases hready : q.ready with
    | false =>
      simp only [BoundedFifo.take, (h.ready.1 hready).1]
      exact .goes _ h
    | true => exact h.takes hready
  | front => exact h.front_alike
  | back => exact h.back_alike
  | size =>
    simp only [BlockQueue.exec, BoundedFifo.exec, h.size]
    exact .goes _ h
  | maxSize =>
    simp only [BlockQueue.exec, BoundedFifo.exec, h.maxSize]
    exact .goes _ h
  | full =>
    simp only [BlockQueue.exec, BoundedFifo.exec, h.size, h.maxSize, Int.ofNat_le]
    exact .goes _ h
  | empty =>
    have hflag : decide (q.size = 0) = f.items.isEmpty := by
      rw [Bool.eq_iff_iff, decide_eq_true_iff, h.items_eq_nil, List.isEmpty_iff]
    simp only [BlockQueue.exec, BoundedFifo.exec, hflag]
    exact .goes _ h
  | clear => exact .goes _ h.clear
  | close => exact .goes _ h.close

/-! ## Whole runs -/

theorem execAll_alike (calls : List (QueueCall T)) (h : q.Shows f) :
    Alike (q.execAll calls) (f.execAll calls) := by
  induction calls generalizing q f with
  | nil => exact .goes [] h
  | cons call calls ih =>
    refine (exec_alike h call).bind fun answer q' f' h' => ?_
    exact (ih h').bind fun answers q'' f'' h'' => .goes (answer :: answers) h''

theorem Shows.contents (h : q.Shows f) : q.contents = f.items := by
  have hcell : ∀ i ∈ List.range f.items.length,
      q.array[((q.front + 1 + (i : Int)).tmod q.maxSize).toNat]? = f.items[i]? := by
    intro i hi
    rw [h.maxSize, tmod_eq_cell h.front_ge i h.bound_pos, Int.toNat_natCast]
    exact h.cells i (List.mem_range.1 hi)
  simp only [BlockQueue.contents, h.size, Int.toNat_natCast]
  rw [List.filterMap_congr hcell, List.filterMap_getElem?]

end BlockQueue

/-! ## Every item once and in order -/

namespace BoundedFifo

variable {T : Type} {f f' : BoundedFifo T}

theorem take_conserves (f : BoundedFifo T) : f.items = f.take.1.toList ++ f.take.2.items := by
  cases hitems : f.items with
  | nil => simp [take, hitems]
  | cons item rest => simp [take, hitems]

/-- A call that is not `clear` puts in what it accepts and takes out what it
pops. -/
theorem exec_conserves {call : QueueCall T} {answer : QueueAnswer T} (hclear : call ≠ .clear)
    (h : f.exec call = .ok (answer, f')) :
    f.items ++ (acceptedBy (call, answer)).toList =
      (poppedBy (call, answer)).toList ++ f'.items := by
  have htake := f.take_conserves
  cases call with
  | push item =>
    simp only [exec] at h
    split at h <;> cases h <;> simp [acceptedBy, poppedBy]
  | pop =>
    simp only [exec] at h
    split at h
    · cases h
    · obtain ⟨hanswer, hf⟩ := Prod.mk.inj (Except.ok.inj h)
      rw [← hanswer, ← hf]
      simp only [acceptedBy, poppedBy, Option.toList_none, List.append_nil]
      exact htake
  | timedPop =>
    obtain ⟨hanswer, hf⟩ := Prod.mk.inj (Except.ok.inj h)
    rw [← hanswer, ← hf]
    simp only [acceptedBy, poppedBy, Option.toList_none, List.append_nil]
    exact htake
  | clear => exact absurd rfl hclear
  | front | back | size | maxSize | full | empty | close =>
    cases h
    simp [acceptedBy, poppedBy]

variable {calls : List (QueueCall T)}

theorem execAll_cons {call : QueueCall T} {answers : List (QueueAnswer T)}
    (h : f.execAll (call :: calls) = .ok (answers, f')) :
    ∃ answer rest f₁, answers = answer :: rest ∧ f.exec call = .ok (answer, f₁) ∧
      f₁.execAll calls = .ok (rest, f') := by
  simp only [execAll] at h
  cases hexec : f.exec call with
  | error stop => simp [hexec, bind, Except.bind] at h
  | ok r =>
    cases hrest : r.2.execAll calls with
    | error stop => simp [hexec, hrest, bind, Except.bind] at h
    | ok r' =>
      simp only [hexec, hrest, bind, Except.bind, Except.ok.injEq, Prod.mk.injEq] at h
      exact ⟨r.1, r'.1, r.2, h.1.symm, rfl, by rw [hrest, ← h.2]⟩

/-- Waiting is the only way in which a run of the list stops. -/
theorem execAll_stops {stop : QueueStop} (h : f.execAll calls = .error stop) : stop = .waits := by
  induction calls generalizing f with
  | nil => cases h
  | cons call calls ih =>
    simp only [execAll] at h
    cases hexec : f.exec call with
    | error stop' =>
      have hstop : stop' = .waits := by
        cases call with
        | push item => simp only [exec] at hexec; split at hexec <;> cases hexec
        | pop => simp only [exec] at hexec; split at hexec <;> cases hexec; rfl
        | timedPop | front | back | size | maxSize | full | empty | clear | close => cases hexec
      simp only [hexec, bind, Except.bind, Except.error.injEq] at h
      rw [← h, hstop]
    | ok r =>
      cases hrest : r.2.execAll calls with
      | error stop' =>
        simp only [hexec, hrest, bind, Except.bind, Except.error.injEq] at h
        exact ih (h ▸ hrest)
      | ok r' => simp [hexec, hrest, bind, Except.bind] at h

theorem execAll_conserves {answers : List (QueueAnswer T)} (hclear : .clear ∉ calls)
    (h : f.execAll calls = .ok (answers, f')) :
    f.items ++ accepted calls answers = popped calls answers ++ f'.items := by
  induction calls generalizing f answers with
  | nil =>
    cases h
    simp [accepted, popped]
  | cons call calls ih =>
    obtain ⟨answer, rest, f₁, rfl, hexec, hrest⟩ := execAll_cons h
    obtain ⟨hne, hclear⟩ := not_or.1 (List.mem_cons.not.1 hclear)
    have hstep := exec_conserves (Ne.symm hne) hexec
    have hrun := ih hclear hrest
    have haccepted : accepted (call :: calls) (answer :: rest) =
        (acceptedBy (call, answer)).toList ++ accepted calls rest := by
      simp only [accepted, List.zip_cons_cons, List.filterMap_cons]
      cases acceptedBy (call, answer) <;> rfl
    have hpopped : popped (call :: calls) (answer :: rest) =
        (poppedBy (call, answer)).toList ++ popped calls rest := by
      simp only [popped, List.zip_cons_cons, List.filterMap_cons]
      cases poppedBy (call, answer) <;> rfl
    rw [haccepted, hpopped, ← List.append_assoc, hstep, List.append_assoc, hrun,
      List.append_assoc]

end BoundedFifo

/-! ## The queue -/

namespace BlockQueue

variable {T : Type}

theorem execAll_ok {q q' : BlockQueue T} {f : BoundedFifo T} {calls : List (QueueCall T)}
    {answers : List (QueueAnswer T)} (h : q.Shows f) (hrun : q.execAll calls = .ok (answers, q')) :
    ∃ f', f.execAll calls = .ok (answers, f') ∧ q'.Shows f' := by
  have halike := execAll_alike calls h
  rw [hrun] at halike
  cases hf : f.execAll calls with
  | error stop => rw [hf] at halike; cases halike
  | ok r =>
    rw [hf] at halike
    cases halike with
    | goes answers hshows => exact ⟨_, rfl, hshows⟩

/-- The queue of the source is a list with a bound: it answers and holds the
same in every run, no run leaves the array, and between two calls of `clear`
what was there and what is accepted comes out in that order, each item once. -/
theorem refines_boundedFifo (initial : T) (n : Int) (hn : 1 ≤ n) :
    ∃ q, create initial n = some q ∧
      (∀ calls, (q.execAll calls).map (fun r => (r.1, r.2.contents, r.2.closed)) =
        (BoundedFifo.execAll { bound := n.toNat } calls).map
          (fun r => (r.1, r.2.items, r.2.closed))) ∧
      (∀ calls index, q.execAll calls ≠ .error (.outOfRange index)) ∧
      ∀ before after answers answers' q₁ q₂, q.execAll before = .ok (answers, q₁) →
        q₁.execAll after = .ok (answers', q₂) → .clear ∉ after →
        q₁.contents ++ accepted after answers' = popped after answers' ++ q₂.contents := by
  obtain ⟨q, hcreate, hshows⟩ := shows_create initial (n := n.toNat) (by omega)
  rw [Int.toNat_of_nonneg (by omega)] at hcreate
  refine ⟨q, hcreate, ?_, ?_, ?_⟩
  · intro calls
    have halike := execAll_alike calls hshows
    generalize q.execAll calls = x at halike
    generalize BoundedFifo.execAll _ calls = y at halike
    cases halike with
    | stops stop => rfl
    | goes answers h => simp [Except.map, h.contents, h.closed]
  · intro calls index hstop
    have halike := execAll_alike calls hshows
    rw [hstop] at halike
    generalize hf : BoundedFifo.execAll _ calls = y at halike
    cases halike with
    | stops stop => cases BoundedFifo.execAll_stops hf
  · intro before after answers answers' q₁ q₂ hbefore hafter hclear
    obtain ⟨f₁, -, h₁⟩ := execAll_ok hshows hbefore
    obtain ⟨f₂, hrun, h₂⟩ := execAll_ok h₁ hafter
    rw [h₁.contents, h₂.contents]
    exact BoundedFifo.execAll_conserves hclear hrun

/-- At two places, through a full queue, a turn of both cursors and a close. -/
theorem refines_boundedFifo_two :
    (1 : Int) ≤ 2 ∧ ∃ q, create (0 : Nat) 2 = some q ∧
      (q.execAll [.push 1, .push 2, .push 3, .pop, .push 4, .close, .pop, .pop, .pop]).map
          (fun r => (r.1, r.2.contents, r.2.closed)) =
        .ok ([.flag true, .flag true, .flag false, .item (some 1), .flag true, .nothing,
          .item (some 2), .item (some 4), .item none], [], true) := by
  obtain ⟨q, hcreate, hruns, -, -⟩ := refines_boundedFifo (0 : Nat) 2 (by decide)
  refine ⟨by decide, q, hcreate, ?_⟩
  rw [hruns]
  rfl

end BlockQueue

end TinyKV
