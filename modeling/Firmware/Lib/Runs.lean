import Mathlib

/-!
# Runs of Partial Step Functions

A program that waits for its surroundings is a partial step function: a state
and the answer to whatever the state is waiting for give the next state, and an
answer of the wrong kind gives nothing. Everything a run of such a program does
is then determined by the list of answers it was given, so "every run" is a
quantifier over lists, and a run that was cut short is the run of a shorter
list.

`run` folds the step function over a list of answers and `trace` records one
observation per step along the way. `Along` says that a condition on the state
and the answer held at every step taken, which is how an assumption about the
surroundings is stated: it may look at the state the answer arrives in.

The induction is packaged once. `run_invariant` carries an invariant from the
first state to the last, and `run_invariant_along` does the same for an
invariant that survives only the steps meeting a condition. Both are used with a
single lemma about one step. `along_iff_always` is for a condition that is also
necessary: where every step that breaks it also breaks the property, the property
holds in every state of a run exactly when the condition is met along it.

A program that ends refuses whatever comes afterwards, so "it ends" is not a
property of an infinite run: `run_reaches` takes an infinite supply of answers and
finds the point in it at which the program has come to its end.

A property of the past is a property of what a bookkeeper who sees the
observations has written down. `watched` runs the program and its bookkeeper side
by side, so that an invariant can relate the two, and `run_watched` says that the
bookkeeper changes nothing and ends with the fold of the trace.

A program that never refuses and answers with a list of outputs is a transducer.
`transduce` runs one over a list of inputs, and because the outputs of an append
are the append of the outputs, it does not matter where its input is cut. A
program whose runs follow a transducer inherits that.

`Endless` is an infinite run. Finite runs are enough for safety; the question
whether something eventually happens needs the infinite ones, and
`Endless.eventually` answers it from a measure that every step lowers.

## Main definitions

* `run`: The state after a list of answers.
* `trace`: What was observed at each step.
* `Along`: A condition met by every step of a run.
* `Always`: A property of every state of a run.
* `transduce`: The state and the outputs of a transducer.
* `watched`: A program and someone who keeps notes about it.
* `firstAnswers`: The beginning of an infinite supply of answers.
* `Endless`: An infinite run.
* `Endless.follow`: The one in which the answers follow a rule.

## Theorems

* `run_append`: A run splits where its list of answers does.
* `trace_append`: The trace splits with the run.
* `run_invariant`: An invariant of every step is an invariant of every run.
* `run_invariant_along`: The same for the steps that meet a condition.
* `run_history`: The same for an invariant that speaks of the answers so far.
* `along_of_invariant`, `always_of_invariant`: What the invariant gives, step by step.
* `along_append`: A condition splits with the run.
* `along_congr`: Conditions that mean the same in every state reached.
* `along_iff_always`: A condition that is exactly what keeps a property.
* `along_iff_always_within`: The same if it keeps the invariant, too.
* `run_total`: A run of steps that are never refused gets through.
* `run_reaches`: A goal that every answer brings closer is reached.
* `run_watched`: The notes of a run are the fold of its trace.
* `transduce_append`: The input of a transducer can be cut anywhere.
* `Endless.eventually`: A measure that every step lowers runs out.
* `Endless.invariant`: An invariant of every step holds at every point.
* `Endless.stays_until`: A state is kept until an answer comes that can change it.
-/

namespace Firmware

variable {σ α κ : Type*}

/-- The state after the answers have been consumed, or `none` once one of them
    is not an answer the state was waiting for. -/
def run (step : σ → α → Option σ) : σ → List α → Option σ
  | s, [] => some s
  | s, a :: as => match step s a with
    | none => none
    | some s' => run step s' as

/-- One observation per step of the run. -/
def trace (step : σ → α → Option σ) (obs : σ → α → κ) : σ → List α → List κ
  | _, [] => []
  | s, a :: as => match step s a with
    | none => []
    | some s' => obs s a :: trace step obs s' as

/-- Every step of the run meets the condition. -/
def Along (step : σ → α → Option σ) (G : σ → α → Prop) : σ → List α → Prop
  | _, [] => True
  | s, a :: as => G s a ∧ ∀ s', step s a = some s' → Along step G s' as

/-- Every state of the run has the property. -/
def Always (step : σ → α → Option σ) (P : σ → Prop) : σ → List α → Prop
  | s, [] => P s
  | s, a :: as => P s ∧ ∀ s', step s a = some s' → Always step P s' as

@[simp] theorem run_nil (step : σ → α → Option σ) (s : σ) : run step s [] = some s := rfl

@[simp] theorem trace_nil (step : σ → α → Option σ) (obs : σ → α → κ) (s : σ) :
    trace step obs s [] = [] := rfl

theorem run_cons (step : σ → α → Option σ) {s s' : σ} {a : α} (h : step s a = some s')
    (as : List α) : run step s (a :: as) = run step s' as := by
  simp only [run, h]

theorem trace_cons (step : σ → α → Option σ) (obs : σ → α → κ) {s s' : σ} {a : α}
    (h : step s a = some s') (as : List α) :
    trace step obs s (a :: as) = obs s a :: trace step obs s' as := by
  simp only [trace, h]

/-- The first step of a run that got through. -/
theorem run_cons_some (step : σ → α → Option σ) {s t : σ} {a : α} {as : List α}
    (h : run step s (a :: as) = some t) :
    ∃ s', step s a = some s' ∧ run step s' as = some t := by
  cases hs : step s a with
  | none => simp only [run, hs, reduceCtorEq] at h
  | some s' => exact ⟨s', rfl, by simpa only [run, hs] using h⟩

theorem along_cons (step : σ → α → Option σ) {G : σ → α → Prop} {s s' : σ} {a : α}
    {as : List α} (h : step s a = some s') (hG : G s a) (hr : Along step G s' as) :
    Along step G s (a :: as) := by
  refine ⟨hG, fun t ht => ?_⟩
  rw [h, Option.some.injEq] at ht
  rw [← ht]
  exact hr

theorem run_append (step : σ → α → Option σ) {s t : σ} {as : List α}
    (h : run step s as = some t) (bs : List α) :
    run step s (as ++ bs) = run step t bs := by
  induction as generalizing s with
  | nil =>
      simp only [run, Option.some.injEq] at h
      rw [h, List.nil_append]
  | cons a as ih =>
      rcases run_cons_some step h with ⟨s', hs, hr⟩
      -- The first step is the same with `bs` behind it.
      rw [List.cons_append, run_cons step hs]
      exact ih hr

theorem trace_append (step : σ → α → Option σ) (obs : σ → α → κ) {s t : σ} {as : List α}
    (h : run step s as = some t) (bs : List α) :
    trace step obs s (as ++ bs) = trace step obs s as ++ trace step obs t bs := by
  induction as generalizing s with
  | nil =>
      simp only [run, Option.some.injEq] at h
      rw [h, List.nil_append, trace_nil, List.nil_append]
  | cons a as ih =>
      rcases run_cons_some step h with ⟨s', hs, hr⟩
      rw [List.cons_append, trace_cons step obs hs, trace_cons step obs hs, ih hr,
        List.cons_append]

/-- An invariant that survives every step meeting the condition survives a run
    all of whose steps meet it. -/
theorem run_invariant_along (step : σ → α → Option σ) (G : σ → α → Prop) (I : σ → Prop)
    (hstep : ∀ s a s', I s → G s a → step s a = some s' → I s') {s t : σ} {as : List α}
    (h0 : I s) (hG : Along step G s as) (h : run step s as = some t) : I t := by
  induction as generalizing s with
  | nil =>
      simp only [run, Option.some.injEq] at h
      rw [← h]
      exact h0
  | cons a as ih =>
      rcases run_cons_some step h with ⟨s', hs, hr⟩
      exact ih (hstep s a s' h0 hG.1 hs) (hG.2 s' hs) hr

/-- Whether a condition is met along a run can be decided by running it. -/
instance decidableAlong (step : σ → α → Option σ) (G : σ → α → Prop)
    [∀ s a, Decidable (G s a)] : (s : σ) → (as : List α) → Decidable (Along step G s as)
  | _, [] => isTrue trivial
  -- A step that is refused leaves nothing to ask of the rest.
  | s, a :: as =>
      match hs : step s a with
      | none => decidable_of_iff (G s a)
          ⟨fun h => ⟨h, fun s' hs' => by rw [hs] at hs'; cases hs'⟩, fun h => h.1⟩
      | some s' =>
          have := decidableAlong step G s' as
          decidable_of_iff (G s a ∧ Along step G s' as)
            ⟨fun h => along_cons step hs h.1 h.2, fun h => ⟨h.1, h.2 s' hs⟩⟩

/-- A condition splits where the list of answers does. -/
theorem along_append (step : σ → α → Option σ) {G : σ → α → Prop} {s u : σ} {as : List α}
    (h : run step s as = some u) (bs : List α) :
    Along step G s (as ++ bs) ↔ Along step G s as ∧ Along step G u bs := by
  induction as generalizing s with
  | nil =>
      simp only [run, Option.some.injEq] at h
      rw [h, List.nil_append]
      exact ⟨fun hG => ⟨trivial, hG⟩, fun hG => hG.2⟩
  | cons a as ih =>
      rcases run_cons_some step h with ⟨s', hs, hr⟩
      constructor
      · -- The first answer belongs to the first part.
        intro hG
        rcases (ih hr).mp (hG.2 s' hs) with ⟨has, hbs⟩
        exact ⟨along_cons step hs hG.1 has, hbs⟩
      · rintro ⟨has, hbs⟩
        exact along_cons step hs has.1 ((ih hr).mpr ⟨has.2 s' hs, hbs⟩)

/-- A condition on the answers alone is met along the run if all of them meet it. -/
theorem along_of_forall (step : σ → α → Option σ) {G : α → Prop} (s : σ) {as : List α}
    (h : ∀ a ∈ as, G a) : Along step (fun _ => G) s as := by
  induction as generalizing s with
  | nil => trivial
  | cons a as ih =>
      refine ⟨h a List.mem_cons_self, ?_⟩
      intro s' _
      exact ih s' fun b hb => h b (List.mem_cons_of_mem a hb)

theorem along_and (step : σ → α → Option σ) {F G : σ → α → Prop} {s : σ} {as : List α}
    (hF : Along step F s as) (hG : Along step G s as) :
    Along step (fun s a => F s a ∧ G s a) s as := by
  induction as generalizing s with
  | nil => trivial
  | cons a as ih =>
      refine ⟨⟨hF.1, hG.1⟩, ?_⟩
      intro s' hs
      exact ih (hF.2 s' hs) (hG.2 s' hs)

theorem run_invariant (step : σ → α → Option σ) (I : σ → Prop)
    (hstep : ∀ s a s', I s → step s a = some s' → I s') {s t : σ} {as : List α}
    (h0 : I s) (h : run step s as = some t) : I t :=
  run_invariant_along step (fun _ _ => True) I (fun s a s' hI _ hs => hstep s a s' hI hs)
    h0 (along_of_forall step s fun _ _ => trivial) h

theorem always_head (step : σ → α → Option σ) {P : σ → Prop} {s : σ} {as : List α}
    (h : Always step P s as) : P s := by
  cases as with
  | nil => exact h
  | cons a as => exact h.1

theorem always_last (step : σ → α → Option σ) {P : σ → Prop} {s t : σ} {as : List α}
    (h : Always step P s as) (hr : run step s as = some t) : P t := by
  induction as generalizing s with
  | nil =>
      simp only [run, Option.some.injEq] at hr
      rw [← hr]
      exact h
  | cons a as ih =>
      rcases run_cons_some step hr with ⟨s', hs, hr'⟩
      exact ih (h.2 s' hs) hr'

/-- An invariant that speaks of the answers so far. -/
theorem run_history (step : σ → α → Option σ) (G : σ → α → Prop) (I : List α → σ → Prop)
    (hstep : ∀ as s a s', I as s → G s a → step s a = some s' → I (as ++ [a]) s')
    {past as : List α} {s t : σ} (h0 : I past s) (hG : Along step G s as)
    (h : run step s as = some t) : I (past ++ as) t := by
  induction as generalizing past s with
  | nil =>
      simp only [run, Option.some.injEq] at h
      rw [← h, List.append_nil]
      exact h0
  | cons a as ih =>
      rcases run_cons_some step h with ⟨s', hs, hr⟩
      -- The answer moves over to those that have been.
      rw [List.append_cons]
      exact ih (hstep past s a s' h0 hG.1 hs) (hG.2 s' hs) hr

/-- What the invariant and the condition say of one step they say of every step. -/
theorem along_of_invariant (step : σ → α → Option σ) {G U : σ → α → Prop} (I : σ → Prop)
    (hstep : ∀ s a s', I s → G s a → step s a = some s' → I s')
    (hU : ∀ s a, I s → G s a → U s a) {s : σ} {as : List α} (h0 : I s)
    (hG : Along step G s as) : Along step U s as := by
  induction as generalizing s with
  | nil => trivial
  | cons a as ih =>
      refine ⟨hU s a h0 hG.1, ?_⟩
      intro s' hs
      exact ih (hstep s a s' h0 hG.1 hs) (hG.2 s' hs)

/-- Two conditions that mean the same for every step from a state with the invariant
    mean the same along a run, if the steps that meet the first one keep it. -/
theorem along_congr (step : σ → α → Option σ) {G U : σ → α → Prop} (I : σ → Prop)
    (hstep : ∀ s a s', I s → G s a → step s a = some s' → I s')
    (hiff : ∀ s a s', I s → step s a = some s' → (G s a ↔ U s a)) {s t : σ} {as : List α}
    (h0 : I s) (h : run step s as = some t) : Along step G s as ↔ Along step U s as := by
  induction as generalizing s with
  | nil => exact Iff.rfl
  | cons a as ih =>
      rcases run_cons_some step h with ⟨s', hs, hr⟩
      constructor
      · intro hG
        -- The step has met the first condition, so the invariant is there behind it.
        have hrest := (ih (hstep s a s' h0 hG.1 hs) hr).mp (hG.2 s' hs)
        exact along_cons step hs ((hiff s a s' h0 hs).mp hG.1) hrest
      · intro hU
        -- That it has met the first one follows here, as the invariant is needed behind it.
        have hG : G s a := (hiff s a s' h0 hs).mpr hU.1
        exact along_cons step hs hG ((ih (hstep s a s' h0 hG hs) hr).mpr (hU.2 s' hs))

/-- What the invariant says of one state it says of every state. -/
theorem always_of_invariant (step : σ → α → Option σ) {G : σ → α → Prop} {P : σ → Prop}
    (I : σ → Prop) (hstep : ∀ s a s', I s → G s a → step s a = some s' → I s')
    (hP : ∀ s, I s → P s) {s : σ} {as : List α} (h0 : I s) (hG : Along step G s as) :
    Always step P s as := by
  induction as generalizing s with
  | nil => exact hP s h0
  | cons a as ih =>
      refine ⟨hP s h0, ?_⟩
      intro s' hs
      exact ih (hstep s a s' h0 hG.1 hs) (hG.2 s' hs)

/-- Among the states with the invariant `I` and the steps the surroundings `E`
    allow, a step that meets the condition keeps the property and one that does not
    loses it. Then the condition is met along a run exactly when the property is
    never lost. -/
theorem along_iff_always (step : σ → α → Option σ) {E G : σ → α → Prop} {I P : σ → Prop}
    (hinv : ∀ s a s', I s → E s a → step s a = some s' → I s')
    (hgood : ∀ s a s', I s → P s → E s a → G s a → step s a = some s' → P s')
    (hbad : ∀ s a s', I s → P s → E s a → ¬ G s a → step s a = some s' → ¬ P s')
    {s t : σ} {as : List α} (hI : I s) (hP : P s) (hE : Along step E s as)
    (h : run step s as = some t) : Along step G s as ↔ Always step P s as := by
  induction as generalizing s with
  | nil => exact ⟨fun _ => hP, fun _ => trivial⟩
  | cons a as ih =>
      rcases run_cons_some step h with ⟨s', hs, hr⟩
      have hI' : I s' := hinv s a s' hI hE.1 hs
      constructor
      · intro hG
        have hP' : P s' := hgood s a s' hI hP hE.1 hG.1 hs
        refine ⟨hP, fun u hu => ?_⟩
        rw [hs, Option.some.injEq] at hu
        rw [← hu]
        exact (ih hI' hP' (hE.2 s' hs) hr).mp (hG.2 s' hs)
      · intro hA
        -- The property survived this step, so the step was one that keeps it.
        have hP' : P s' := always_head step (hA.2 s' hs)
        have hG : G s a := by
          by_contra hn
          exact hbad s a s' hI hP hE.1 hn hs hP'
        exact along_cons step hs hG ((ih hI' hP' (hE.2 s' hs) hr).mpr (hA.2 s' hs))

/-- The same if the invariant is only kept as long as the condition is met. -/
theorem along_iff_always_within (step : σ → α → Option σ) {E G : σ → α → Prop} {I P : σ → Prop}
    (hgood : ∀ s a s', I s → P s → E s a → G s a → step s a = some s' → I s' ∧ P s')
    (hbad : ∀ s a s', I s → P s → E s a → ¬ G s a → step s a = some s' → ¬ P s')
    {s t : σ} {as : List α} (hI : I s) (hP : P s) (hE : Along step E s as)
    (h : run step s as = some t) : Along step G s as ↔ Always step P s as := by
  induction as generalizing s with
  | nil => exact ⟨fun _ => hP, fun _ => trivial⟩
  | cons a as ih =>
      rcases run_cons_some step h with ⟨s', hs, hr⟩
      constructor
      · intro hG
        -- The invariant comes with the condition and not ahead of it.
        rcases hgood s a s' hI hP hE.1 hG.1 hs with ⟨hI', hP'⟩
        refine ⟨hP, fun u hu => ?_⟩
        rw [hs, Option.some.injEq] at hu
        rw [← hu]
        exact (ih hI' hP' (hE.2 s' hs) hr).mp (hG.2 s' hs)
      · intro hA
        -- The property survived this step, so the step was one that keeps it.
        have hP' : P s' := always_head step (hA.2 s' hs)
        have hG : G s a := by
          by_contra hn
          exact hbad s a s' hI hP hE.1 hn hs hP'
        -- Only now is it known that the step has kept the invariant.
        have hI' : I s' := (hgood s a s' hI hP hE.1 hG hs).1
        exact along_cons step hs hG ((ih hI' hP' (hE.2 s' hs) hr).mpr (hA.2 s' hs))

/-- Where no step that meets the condition is refused in a state with the invariant, no
    run of such steps is. -/
theorem run_total (step : σ → α → Option σ) {G : σ → α → Prop} (I : σ → Prop)
    (hstep : ∀ s a, I s → G s a → ∃ s', step s a = some s' ∧ I s') {s : σ} {as : List α}
    (h0 : I s) (hG : Along step G s as) : ∃ t, run step s as = some t ∧ I t := by
  induction as generalizing s with
  | nil => exact ⟨s, rfl, h0⟩
  | cons a as ih =>
      rcases hstep s a h0 hG.1 with ⟨s', hs, hI⟩
      rw [run_cons step hs]
      exact ih hI (hG.2 s' hs)

/-- The first answers of an infinite supply of them. -/
def firstAnswers (answers : Nat → α) (n : Nat) : List α := (List.range n).map answers

@[simp] theorem firstAnswers_length (answers : Nat → α) (n : Nat) :
    (firstAnswers answers n).length = n := by
  rw [firstAnswers, List.length_map, List.length_range]

theorem firstAnswers_succ (answers : Nat → α) (n : Nat) :
    firstAnswers answers (n + 1) = answers 0 :: firstAnswers (fun i => answers (i + 1)) n := by
  simp only [firstAnswers, List.range_succ_eq_map, List.map_cons, List.map_map]
  rfl

theorem firstAnswers_snoc (answers : Nat → α) (n : Nat) :
    firstAnswers answers (n + 1) = firstAnswers answers n ++ [answers n] := by
  simp only [firstAnswers, List.range_succ, List.map_append, List.map_cons, List.map_nil]

/-- A goal that every answer brings closer is reached, however the answers go on. Until
    then no answer is refused. -/
theorem run_reaches (step : σ → α → Option σ) {A : α → Prop} {I P : σ → Prop} (μ : σ → Nat)
    (hstep : ∀ s a, I s → ¬ P s → A a →
      ∃ s', step s a = some s' ∧ I s' ∧ (P s' ∨ μ s' < μ s)) {s : σ} (hI : I s)
    (answers : Nat → α) (hA : ∀ i, A (answers i)) :
    ∃ n t, run step s (firstAnswers answers n) = some t ∧ P t := by
  -- Strong induction on the measure of the state the run is in.
  induction hk : μ s using Nat.strong_induction_on generalizing s answers with
  | _ k ih =>
      by_cases hP : P s
      · exact ⟨0, s, rfl, hP⟩
      · rcases hstep s (answers 0) hI hP (hA 0) with ⟨s', hs, hI', hP' | hlt⟩
        · exact ⟨1, s', by rw [firstAnswers_succ, run_cons step hs]; rfl, hP'⟩
        · rcases ih (μ s') (by omega) hI' _ (fun i => hA (i + 1)) rfl with ⟨n, t, hr, ht⟩
          exact ⟨n + 1, t, by rw [firstAnswers_succ, run_cons step hs, hr], ht⟩

/-- The step function together with notes `m` that are taken of each observation. -/
def watched {μ : Type*} (step : σ → α → Option σ) (obs : σ → α → κ) (note : μ → κ → μ) :
    σ × μ → α → Option (σ × μ) :=
  fun w a => (step w.1 a).map fun s' => (s', note w.2 (obs w.1 a))

theorem run_watched {μ : Type*} (step : σ → α → Option σ) (obs : σ → α → κ) (note : μ → κ → μ)
    {s t : σ} {as : List α} (h : run step s as = some t) (m : μ) :
    run (watched step obs note) (s, m) as = some (t, (trace step obs s as).foldl note m) := by
  induction as generalizing s m with
  | nil =>
      simp only [run, Option.some.injEq] at h
      rw [run_nil, trace_nil, List.foldl_nil, h]
  | cons a as ih =>
      rcases run_cons_some step h with ⟨s', hs, hr⟩
      have hw : watched step obs note (s, m) a = some (s', note m (obs s a)) := by
        simp only [watched, hs, Option.map_some]
      rw [run_cons _ hw, trace_cons step obs hs, List.foldl_cons]
      exact ih hr _

/-- The state and the outputs of a transducer after a list of inputs. -/
def transduce (f : σ → α → σ × List κ) : σ → List α → σ × List κ
  | s, [] => (s, [])
  | s, a :: as => ((transduce f (f s a).1 as).1, (f s a).2 ++ (transduce f (f s a).1 as).2)

theorem transduce_cons (f : σ → α → σ × List κ) (s : σ) (a : α) (as : List α) :
    transduce f s (a :: as) =
      ((transduce f (f s a).1 as).1, (f s a).2 ++ (transduce f (f s a).1 as).2) := rfl

theorem transduce_singleton (f : σ → α → σ × List κ) (s : σ) (a : α) :
    transduce f s [a] = f s a := by
  rw [transduce_cons, transduce, List.append_nil]

theorem transduce_append (f : σ → α → σ × List κ) (s : σ) (as bs : List α) :
    transduce f s (as ++ bs) = ((transduce f (transduce f s as).1 bs).1,
      (transduce f s as).2 ++ (transduce f (transduce f s as).1 bs).2) := by
  induction as generalizing s with
  | nil => rfl
  | cons a as ih =>
      rw [List.cons_append, transduce_cons, ih, transduce_cons, List.append_assoc]

/-- A state that ignores every input ignores all of them. -/
theorem transduce_of_ignores (f : σ → α → σ × List κ) (s : σ) (h : ∀ a, f s a = (s, []))
    (as : List α) : transduce f s as = (s, []) := by
  induction as with
  | nil => rfl
  | cons a as ih => rw [transduce_cons, h a, ih, List.append_nil]

/-- An infinite run: the states it passes through and the answers it was given. -/
structure Endless (step : σ → α → Option σ) where
  state : Nat → σ
  answer : Nat → α
  steps : ∀ n, step (state n) (answer n) = some (state (n + 1))

namespace Endless

variable {step : σ → α → Option σ} (r : Endless step)

/-- Something that every step either reaches or comes closer to is reached. The
    invariant `I` is what the steps on the way may rely on. -/
theorem eventually (I P : σ → Prop) (μ : σ → Nat)
    (hstep : ∀ s a s', I s → ¬ P s → step s a = some s' → P s' ∨ (I s' ∧ μ s' < μ s)) :
    ∀ n, I (r.state n) → ∃ m, n ≤ m ∧ P (r.state m) := by
  intro n
  -- Strong induction on the measure of the current state.
  induction hk : μ (r.state n) using Nat.strong_induction_on generalizing n with
  | _ k ih =>
      intro hI
      by_cases hP : P (r.state n)
      · exact ⟨n, le_refl n, hP⟩
      · rcases hstep _ _ _ hI hP (r.steps n) with h | ⟨hI', hlt⟩
        · exact ⟨n + 1, by omega, h⟩
        · rcases ih (μ (r.state (n + 1))) (by omega) (n + 1) rfl hI' with ⟨m, hm, hPm⟩
          exact ⟨m, by omega, hPm⟩

/-- An invariant of every step holds at every point. -/
theorem invariant (I : σ → Prop) (hstep : ∀ s a s', I s → step s a = some s' → I s')
    (h0 : I (r.state 0)) (n : Nat) : I (r.state n) := by
  induction n with
  | zero => exact h0
  | succ n ih => exact hstep _ _ _ ih (r.steps n)

/-- A state that only answers of one kind can leave is kept until one of them comes. -/
theorem stays (C : α → Prop) {n : Nat}
    (hstay : ∀ a s', step (r.state n) a = some s' → C a ∨ s' = r.state n) {d : Nat}
    (h : ∀ i, i < d → ¬ C (r.answer (n + i))) : r.state (n + d) = r.state n := by
  induction d with
  | zero => rfl
  | succ d ih =>
      -- As long as none of them has come the state is still that of point `n`.
      have hd : r.state (n + d) = r.state n := ih fun i hi => h i (by omega)
      have hs := r.steps (n + d)
      rw [hd] at hs
      rcases hstay _ _ hs with hC | heq
      · exact absurd hC (h d (by omega))
      · exact heq

/-- The state in which the first of them finds it. -/
theorem stays_until (C : α → Prop) {n : Nat}
    (hstay : ∀ a s', step (r.state n) a = some s' → C a ∨ s' = r.state n)
    (h : ∃ m, n ≤ m ∧ C (r.answer m)) :
    ∃ m, n ≤ m ∧ r.state m = r.state n ∧ C (r.answer m) := by
  classical
  have hex : ∃ d, C (r.answer (n + d)) := by
    rcases h with ⟨m, hm, hC⟩
    exact ⟨m - n, by rwa [Nat.add_sub_cancel' hm]⟩
  -- The first of them is the one that nothing has happened before.
  refine ⟨n + Nat.find hex, by omega, ?_, Nat.find_spec hex⟩
  exact r.stays C hstay fun i hi => Nat.find_min hex hi

/-- The infinite run in which the surroundings answer by a rule that is never refused. -/
def follow (next : σ → σ) (rule : σ → α) (h : ∀ s, step s (rule s) = some (next s)) (s : σ) :
    Endless step where
  state n := next^[n] s
  answer n := rule (next^[n] s)
  steps n := by
    rw [Function.iterate_succ_apply']
    exact h _

end Endless

end Firmware
