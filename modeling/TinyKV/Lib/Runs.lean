import Mathlib.Data.List.Basic

/-!
# Runs of a step function

A system whose next state is a partial function of the state and an event:
an event that is not enabled has no step. `run` takes the events one by one,
and `Always` says of every step a run takes that some relation holds between
the state before it, the event and the state after it. A run ends at the
first event that is not enabled.
-/

namespace TinyKV.Runs

variable {σ ε : Type} (step : σ → ε → Option σ)

def run : σ → List ε → Option σ
  | s, [] => some s
  | s, e :: es =>
    match step s e with
    | none => none
    | some s' => run s' es

/-- Every step of the run satisfies `P`. -/
def Always (P : σ → ε → σ → Prop) : σ → List ε → Prop
  | _, [] => True
  | s, e :: es =>
    match step s e with
    | none => True
    | some s' => P s e s' ∧ Always P s' es

variable {step}

@[simp] theorem run_nil (s : σ) : run step s [] = some s := rfl

variable {s s' t : σ} {e : ε} {es : List ε} {P Q C : σ → ε → σ → Prop} {I : σ → Prop}

theorem run_cons (h : step s e = some s') (es : List ε) :
    run step s (e :: es) = run step s' es := by
  rw [run, h]

theorem run_cons_some (h : run step s (e :: es) = some t) :
    ∃ s', step s e = some s' ∧ run step s' es = some t := by
  rw [run] at h
  split at h
  · cases h
  · next s' hs => exact ⟨s', hs, h⟩

theorem run_append (h : run step s es = some t) (fs : List ε) :
    run step s (es ++ fs) = run step t fs := by
  induction es generalizing s with
  | nil =>
    injection h with h
    rw [h, List.nil_append]
  | cons e es ih =>
    obtain ⟨s', hs, h⟩ := run_cons_some h
    rw [List.cons_append, run_cons hs, ih h]

theorem always_cons (h : step s e = some s') (es : List ε) :
    Always step P s (e :: es) ↔ P s e s' ∧ Always step P s' es := by
  rw [Always, h]

instance decidableAlways (P : σ → ε → σ → Prop) [∀ s e s', Decidable (P s e s')] :
    (s : σ) → (es : List ε) → Decidable (Always step P s es)
  | _, [] => isTrue trivial
  | s, e :: es =>
    match h : step s e with
    | none => isTrue (by rw [Always, h]; trivial)
    | some s' =>
      have := decidableAlways P s' es
      decidable_of_iff _ (always_cons h es).symm

theorem always_and :
    Always step (fun s e s' => P s e s' ∧ Q s e s') s es ↔
      Always step P s es ∧ Always step Q s es := by
  induction es generalizing s with
  | nil => exact (and_self_iff).symm
  | cons e es ih =>
    cases hs : step s e with
    | none => simp [Always, hs]
    | some s' =>
      rw [always_cons hs, always_cons hs, always_cons hs, ih]
      exact and_and_and_comm

theorem always_of_forall {P : ε → Prop} (h : ∀ e ∈ es, P e) :
    Always step (fun _ e _ => P e) s es := by
  induction es generalizing s with
  | nil => trivial
  | cons e es ih =>
    cases hs : step s e with
    | none => rw [Always, hs]; trivial
    | some s' =>
      exact (always_cons hs es).mpr ⟨h e (List.mem_cons_self ..),
        ih fun x hx => h x (List.mem_cons_of_mem _ hx)⟩

theorem always_append_right {pre post : List ε} (h : Always step P s (pre ++ post))
    (hrun : run step s pre = some t) : Always step P t post := by
  induction pre generalizing s with
  | nil =>
    injection hrun with hrun
    exact hrun ▸ h
  | cons e pre ih =>
    obtain ⟨s', hs, hrun⟩ := run_cons_some hrun
    exact ih ((always_cons hs _).mp h).2 hrun

/-- What holds of every step holds of the step after a prefix. -/
theorem always_at {t' : σ} {pre post : List ε} (h : Always step P s (pre ++ e :: post))
    (hrun : run step s pre = some t) (hs : step t e = some t') : P t e t' :=
  ((always_cons hs post).mp (always_append_right h hrun)).1

/-- A property that each step keeps holds wherever a run ends. -/
theorem inv_of_run (hstep : ∀ s e s', I s → step s e = some s' → I s') (h : I s)
    (hrun : run step s es = some t) : I t := by
  induction es generalizing s with
  | nil =>
    injection hrun with hrun
    exact hrun ▸ h
  | cons e es ih =>
    obtain ⟨s', hs, hrun⟩ := run_cons_some hrun
    exact ih (hstep s e s' h hs) hrun

/-- A property that each step keeps, as long as the steps meet `C`, holds
wherever such a run ends. -/
theorem inv_of_always (hstep : ∀ s e s', I s → step s e = some s' → C s e s' → I s') (h : I s)
    (hrun : run step s es = some t) (hC : Always step C s es) : I t := by
  induction es generalizing s with
  | nil =>
    injection hrun with hrun
    exact hrun ▸ h
  | cons e es ih =>
    obtain ⟨s', hs, hrun⟩ := run_cons_some hrun
    obtain ⟨hc, hC⟩ := (always_cons hs es).mp hC
    exact ih (hstep s e s' h hs hc) hrun hC

/-- If the steps meet `C`, then they meet whatever `C` gives where an
invariant holds that such steps keep. -/
theorem always_of_always (hstep : ∀ s e s', I s → step s e = some s' → C s e s' → P s e s' ∧ I s')
    (h : I s) (hC : Always step C s es) : Always step P s es := by
  induction es generalizing s with
  | nil => trivial
  | cons e es ih =>
    cases hs : step s e with
    | none => rw [Always, hs]; trivial
    | some s' =>
      obtain ⟨hc, hC⟩ := (always_cons hs es).mp hC
      obtain ⟨hp, hi⟩ := hstep s e s' h hs hc
      exact (always_cons hs es).mpr ⟨hp, ih hi hC⟩

/-- Two step relations that agree wherever an invariant holds, and keep it,
hold of the same runs. -/
theorem always_iff (hiff : ∀ s e s', I s → step s e = some s' → (P s e s' ↔ Q s e s'))
    (hinv : ∀ s e s', I s → step s e = some s' → P s e s' → I s') (h : I s) :
    Always step P s es ↔ Always step Q s es := by
  induction es generalizing s with
  | nil => exact Iff.rfl
  | cons e es ih =>
    cases hs : step s e with
    | none => rw [Always, Always, hs]
    | some s' =>
      rw [always_cons hs, always_cons hs]
      constructor
      · rintro ⟨hp, hrest⟩
        exact ⟨(hiff s e s' h hs).mp hp, (ih (hinv s e s' h hs hp)).mp hrest⟩
      · rintro ⟨hq, hrest⟩
        have hp := (hiff s e s' h hs).mpr hq
        exact ⟨hp, (ih (hinv s e s' h hs hp)).mpr hrest⟩

/-- The same of runs whose steps are all of one kind. -/
theorem always_iff_of_always
    (hiff : ∀ s e s', I s → step s e = some s' → C s e s' → (P s e s' ↔ Q s e s'))
    (hinv : ∀ s e s', I s → step s e = some s' → C s e s' → P s e s' → I s') (h : I s)
    (hC : Always step C s es) : Always step P s es ↔ Always step Q s es := by
  have hboth : Always step (fun s e s' => C s e s' ∧ P s e s') s es ↔
      Always step (fun s e s' => C s e s' ∧ Q s e s') s es :=
    always_iff (fun s e s' hI hs => and_congr_right (hiff s e s' hI hs))
      (fun s e s' hI hs hp => hinv s e s' hI hs hp.1 hp.2) h
  rw [always_and, always_and] at hboth
  exact ⟨fun hp => (hboth.mp ⟨hC, hp⟩).2, fun hq => (hboth.mpr ⟨hC, hq⟩).2⟩

/-- A run of steps each of which pays from a measure is no longer than what
there was to pay from. -/
theorem length_add_le_of_decreases {m : σ → Nat} {P : ε → Prop}
    (hstep : ∀ s e s', P e → step s e = some s' → m s' < m s) (hP : ∀ e ∈ es, P e)
    (hrun : run step s es = some t) : es.length + m t ≤ m s := by
  induction es generalizing s with
  | nil =>
    injection hrun with hrun
    simp [hrun]
  | cons e es ih =>
    obtain ⟨s', hs, hrun⟩ := run_cons_some hrun
    have hrest := ih (fun e he => hP e (List.mem_cons_of_mem _ he)) hrun
    have hpaid := hstep s e s' (hP e (List.mem_cons_self ..)) hs
    simp only [List.length_cons]
    omega

/-! ## What a run passes through -/

variable (step) in
/-- Some state of the run satisfies `P`. -/
def Passes (P : σ → Prop) (s : σ) (es : List ε) : Prop :=
  ∃ pre t, pre <+: es ∧ run step s pre = some t ∧ P t

theorem passes_nil {P : σ → Prop} : Passes step P s [] ↔ P s := by
  constructor
  · rintro ⟨pre, t, hpre, hrun, ht⟩
    rw [List.prefix_nil.mp hpre] at hrun
    injection hrun with hrun
    exact hrun ▸ ht
  · intro hs
    exact ⟨[], s, List.nil_prefix, rfl, hs⟩

theorem passes_cons {P : σ → Prop} (h : step s e = some s') :
    Passes step P s (e :: es) ↔ P s ∨ Passes step P s' es := by
  constructor
  · rintro ⟨pre, t, hpre, hrun, ht⟩
    rcases List.prefix_cons_iff.mp hpre with rfl | ⟨pre, rfl, hsub⟩
    · injection hrun with hrun
      exact Or.inl (hrun ▸ ht)
    · rw [run_cons h] at hrun
      exact Or.inr ⟨pre, t, hsub, hrun, ht⟩
  · rintro (hs | ⟨pre, t, hpre, hrun, ht⟩)
    · exact ⟨[], s, List.nil_prefix, rfl, hs⟩
    · exact ⟨e :: pre, t, List.cons_prefix_cons.mpr ⟨rfl, hpre⟩, (run_cons h pre).trans hrun, ht⟩

theorem always_of_prefix {fs : List ε} (h : Always step P s fs) (hpre : es <+: fs) :
    Always step P s es := by
  induction es generalizing s fs with
  | nil => trivial
  | cons e es ih =>
    obtain ⟨post, rfl⟩ := hpre
    cases hs : step s e with
    | none => rw [Always, hs]; trivial
    | some s' =>
      obtain ⟨hp, h⟩ := (always_cons hs (es ++ post)).mp h
      exact (always_cons hs es).mpr ⟨hp, ih h ⟨post, rfl⟩⟩

/-- A system followed by another that remembers: if every step is matched,
and what the other system then remembers more is true of the state reached,
it remembers in the end what the run has passed through. -/
theorem exists_history {γ α : Type} {R : σ → γ → Prop} {L : γ → α → Prop} {P : σ → α → Prop}
    (hheld : ∀ s g a, R s g → P s a → L g a)
    (hstep : ∀ s e s' g, R s g → step s e = some s' → C s e s' →
      ∃ g', R s' g' ∧ (∀ a, L g a → L g' a) ∧ ∀ a, L g' a → L g a ∨ P s' a) {g : γ} (h : R s g)
    (hrun : run step s es = some t) (hC : Always step C s es) :
    ∃ g', R t g' ∧ ∀ a, L g' a ↔ L g a ∨ Passes step (P · a) s es := by
  induction es generalizing s g with
  | nil =>
    injection hrun with hrun
    subst hrun
    refine ⟨g, h, fun a => ⟨Or.inl, ?_⟩⟩
    rintro (ha | ha)
    · exact ha
    · exact hheld s g a h ((passes_nil (P := (P · a))).mp ha)
  | cons e es ih =>
    obtain ⟨s', hs, hrun⟩ := run_cons_some hrun
    obtain ⟨hc, hC⟩ := (always_cons hs es).mp hC
    obtain ⟨g₁, h₁, hkeep, hnew⟩ := hstep s e s' g h hs hc
    obtain ⟨g', h', hiff⟩ := ih h₁ hrun hC
    refine ⟨g', h', fun a => ?_⟩
    rw [hiff, passes_cons hs]
    constructor
    · rintro (ha | ha)
      · rcases hnew a ha with ha | ha
        · exact Or.inl ha
        · exact Or.inr (Or.inr ⟨[], s', List.nil_prefix, rfl, ha⟩)
      · exact Or.inr (Or.inr ha)
    · rintro (ha | ha | ha)
      · exact Or.inl (hkeep a ha)
      · exact Or.inl (hkeep a (hheld s g a h ha))
      · exact Or.inr ha

end TinyKV.Runs
