import Mathlib.Tactic

/-!
# Runs of a partial step function

A step may fail: an assertion ends the program, a pointer is null, a loop does
not come to its end.  `runAll step cs s` performs the steps `cs` one after the
other and is `none` as soon as one of them fails.  It serves for the loops of
a program over a list as well as for whole runs of it.

* `runAll_append`, `runAll_invariant` — composition, and the induction that
  carries an invariant along a run; `runAll_history` is the one for what is said
  of a state and the steps before it, `runAll_isSome` the one that shows that a
  run comes to its end, `runAll_both` the one for a relation of two runs.
* `runAll_flatMap`, `runAll_map` — a loop that reads its steps off the state
  performs the steps of a fixed list, if an invariant says what it reads.
* `Meets guard step cs s` says that every step of the run meets a condition on
  the state just before it; `runAll_guarded` is the induction for runs of that
  kind.
* `runLog log step cs s` lists what the steps of a run report, up to the first
  one that fails; all of it has a property when the run `Meets` that
  (`forall_mem_runLog`).
* `meets_of_checked` finds out that a run is of that kind by running it with a
  step function that checks the condition, such as `guarded guard step`.
-/

namespace Cidl

variable {σ ι : Type*}

/-- Perform the steps of a list, in order. -/
def runAll (step : ι → σ → Option σ) : List ι → σ → Option σ
  | [], s => some s
  | c :: cs, s => (step c s).bind (runAll step cs)

section

variable {step : ι → σ → Option σ} {s s' : σ}

@[simp] theorem runAll_nil : runAll step [] s = some s := rfl

theorem runAll_cons (c : ι) (cs : List ι) :
    runAll step (c :: cs) s = (step c s).bind (runAll step cs) := rfl

theorem runAll_cons_eq_some {c : ι} {cs : List ι} :
    runAll step (c :: cs) s = some s' ↔ ∃ t, step c s = some t ∧ runAll step cs t = some s' := by
  rw [runAll_cons, Option.bind_eq_some_iff]

theorem runAll_append (cs ds : List ι) :
    runAll step (cs ++ ds) s = (runAll step cs s).bind (runAll step ds) := by
  induction cs generalizing s with
  | nil => rfl
  | cons c cs ih =>
    rw [List.cons_append, runAll_cons, runAll_cons, Option.bind_assoc]
    exact Option.bind_congr fun t _ => ih

/-- What every step of the list preserves, the run preserves. -/
theorem runAll_invariant {P : σ → Prop} {cs : List ι}
    (hstep : ∀ c ∈ cs, ∀ s s', P s → step c s = some s' → P s') (hs : P s)
    (h : runAll step cs s = some s') : P s' := by
  induction cs generalizing s with
  | nil => cases h; exact hs
  | cons c cs ih =>
    obtain ⟨t, ht, hrest⟩ := runAll_cons_eq_some.1 h
    exact ih (fun d hd => hstep d (List.mem_cons_of_mem _ hd))
      (hstep c (List.mem_cons_self ..) s t hs ht) hrest

/-- The induction for what is said of a state together with the steps before it. -/
theorem runAll_history {P : List ι → σ → Prop} {cs : List ι} (hs : P [] s)
    (hstep : ∀ pre c t t', runAll step pre s = some t → P pre t → step c t = some t' →
      P (pre ++ [c]) t')
    (h : runAll step cs s = some s') : P cs s' := by
  induction cs using List.reverseRecOn generalizing s' with
  | nil =>
    cases h
    exact hs
  | append_singleton pre c ih =>
    rw [runAll_append, Option.bind_eq_some_iff] at h
    obtain ⟨t, ht, hc⟩ := h
    obtain ⟨t', ht', hnil⟩ := runAll_cons_eq_some.1 hc
    cases hnil
    exact hstep pre c t s' ht (ih ht) ht'

/-- A run comes to its end if every step does while an invariant holds. -/
theorem runAll_isSome {P : σ → Prop} {cs : List ι}
    (hstep : ∀ c ∈ cs, ∀ s, P s → ∃ s', step c s = some s' ∧ P s') (hs : P s) :
    ∃ s', runAll step cs s = some s' ∧ P s' := by
  induction cs generalizing s with
  | nil => exact ⟨s, rfl, hs⟩
  | cons c cs ih =>
    obtain ⟨t, ht, hPt⟩ := hstep c (List.mem_cons_self ..) s hs
    obtain ⟨s', hs', hP⟩ := ih (fun d hd => hstep d (List.mem_cons_of_mem _ hd)) hPt
    exact ⟨s', runAll_cons_eq_some.2 ⟨t, ht, hs'⟩, hP⟩

/-- Two step functions that agree wherever the first succeeds. -/
theorem runAll_mono {step' : ι → σ → Option σ} {cs : List ι}
    (hle : ∀ c ∈ cs, ∀ s s', step c s = some s' → step' c s = some s')
    (h : runAll step cs s = some s') : runAll step' cs s = some s' := by
  induction cs generalizing s with
  | nil => exact h
  | cons c cs ih =>
    obtain ⟨t, ht, hrest⟩ := runAll_cons_eq_some.1 h
    exact runAll_cons_eq_some.2 ⟨t, hle c (List.mem_cons_self ..) s t ht,
      ih (fun d hd => hle d (List.mem_cons_of_mem _ hd)) hrest⟩

/-- What the steps of two machines preserve side by side, their runs preserve. -/
theorem runAll_both {τ : Type*} {step' : ι → τ → Option τ} {R : σ → τ → Prop} {cs : List ι}
    (hstep : ∀ c ∈ cs, ∀ s t s' t', R s t → step c s = some s' → step' c t = some t' → R s' t')
    {t t' : τ} (hst : R s t) (h : runAll step cs s = some s') (h' : runAll step' cs t = some t') :
    R s' t' := by
  induction cs generalizing s t with
  | nil =>
    cases h
    cases h'
    exact hst
  | cons c cs ih =>
    obtain ⟨u, hu, hrest⟩ := runAll_cons_eq_some.1 h
    obtain ⟨v, hv, hrest'⟩ := runAll_cons_eq_some.1 h'
    exact ih (fun d hd => hstep d (List.mem_cons_of_mem _ hd))
      (hstep c (List.mem_cons_self ..) s t u v hst hu hv) hrest hrest'

/-- A loop whose body performs some steps, when an invariant of the run says
which steps these are. -/
theorem runAll_flatMap {α : Type*} {P : σ → Prop} {body : α → σ → Option σ} {known : α → List ι}
    {l : List α} (hbody : ∀ a ∈ l, ∀ s, P s → body a s = runAll step (known a) s)
    (hstep : ∀ a ∈ l, ∀ c ∈ known a, ∀ s s', P s → step c s = some s' → P s') (hs : P s) :
    runAll body l s = runAll step (l.flatMap known) s := by
  induction l generalizing s with
  | nil => rfl
  | cons a l ih =>
    rw [List.flatMap_cons, runAll_append, runAll_cons, hbody a (List.mem_cons_self ..) s hs]
    refine Option.bind_congr fun t ht => ih (fun b hb => hbody b (List.mem_cons_of_mem _ hb))
      (fun b hb => hstep b (List.mem_cons_of_mem _ hb)) ?_
    exact runAll_invariant (hstep a (List.mem_cons_self ..)) hs ht

/-- The same where only the results of the body are known. -/
theorem runAll_flatMap_of_some {α : Type*} {P : σ → Prop} {body : α → σ → Option σ}
    {known : α → List ι} {l : List α}
    (hbody : ∀ a ∈ l, ∀ s s', P s → body a s = some s' →
      P s' ∧ runAll step (known a) s = some s') (hs : P s) (h : runAll body l s = some s') :
    P s' ∧ runAll step (l.flatMap known) s = some s' := by
  induction l generalizing s with
  | nil =>
    cases h
    exact ⟨hs, rfl⟩
  | cons a l ih =>
    obtain ⟨t, ht, hrest⟩ := runAll_cons_eq_some.1 h
    obtain ⟨hPt, hknown⟩ := hbody a (List.mem_cons_self ..) s t hs ht
    rw [List.flatMap_cons, runAll_append, hknown, Option.bind_some]
    exact ih (fun b hb => hbody b (List.mem_cons_of_mem _ hb)) hPt hrest

/-- Steps that come in groups. -/
theorem runAll_groups {α : Type*} (f : α → List ι) (l : List α) :
    runAll (fun a => runAll step (f a)) l s = runAll step (l.flatMap f) s :=
  runAll_flatMap (P := fun _ => True) (fun _ _ _ _ => rfl) (fun _ _ _ _ _ _ _ _ => trivial) trivial

/-- A loop that takes each step from the present state. -/
theorem runAll_map {α : Type*} {P : σ → Prop} {call : α → σ → ι} {known : α → ι} {l : List α}
    (hcall : ∀ a ∈ l, ∀ s, P s → call a s = known a)
    (hstep : ∀ a ∈ l, ∀ s s', P s → step (known a) s = some s' → P s') (hs : P s) :
    runAll (fun a s => step (call a s) s) l s = runAll step (l.map known) s := by
  rw [List.map_eq_flatMap]
  refine runAll_flatMap (P := P) (fun a ha s hs => ?_) (fun a ha c hc s s' hs h => ?_) hs
  · rw [hcall a ha s hs, runAll_cons]
    exact (Option.bind_fun_some _).symm
  · rw [List.mem_singleton.1 hc] at h
    exact hstep a ha s s' hs h

end

/-! ## Runs whose steps meet a condition -/

/-- Every step of the run meets `guard` in the state just before it. -/
def Meets (guard : ι → σ → Prop) (step : ι → σ → Option σ) : List ι → σ → Prop
  | [], _ => True
  | c :: cs, s => guard c s ∧ ∀ t, step c s = some t → Meets guard step cs t

section

variable {guard : ι → σ → Prop} {step : ι → σ → Option σ} {s s' : σ}

/-- The induction for guarded runs: an invariant that every guarded step
preserves holds at the end of a run whose steps all meet the guard. -/
theorem runAll_guarded {P : σ → Prop}
    (hstep : ∀ c s s', P s → guard c s → step c s = some s' → P s') {cs : List ι} (hs : P s)
    (hm : Meets guard step cs s) (h : runAll step cs s = some s') : P s' := by
  induction cs generalizing s with
  | nil => cases h; exact hs
  | cons c cs ih =>
    obtain ⟨t, ht, hrest⟩ := runAll_cons_eq_some.1 h
    exact ih (hstep c s t hs hm.1 ht) (hm.2 t ht) hrest

theorem meets_append {cs ds : List ι} : Meets guard step (cs ++ ds) s ↔
    Meets guard step cs s ∧ ∀ t, runAll step cs s = some t → Meets guard step ds t := by
  induction cs generalizing s with
  | nil => simp [Meets]
  | cons c cs ih =>
    simp only [List.cons_append, Meets, ih, runAll_cons_eq_some]
    constructor
    · rintro ⟨hc, hrest⟩
      refine ⟨⟨hc, fun t ht => (hrest t ht).1⟩, ?_⟩
      rintro u ⟨t, ht, hu⟩
      exact (hrest t ht).2 u hu
    · rintro ⟨⟨hc, hcs⟩, hds⟩
      exact ⟨hc, fun t ht => ⟨hcs t ht, fun u hu => hds u ⟨t, ht, hu⟩⟩⟩

/-- A guard that follows from another one, given an invariant of all steps. -/
theorem Meets.imp {guard' : ι → σ → Prop} {P : σ → Prop}
    (hstep : ∀ c s s', P s → step c s = some s' → P s')
    (himp : ∀ c s, P s → guard' c s → guard c s) {cs : List ι} (hs : P s)
    (h : Meets guard' step cs s) : Meets guard step cs s := by
  induction cs generalizing s with
  | nil => trivial
  | cons c cs ih =>
    exact ⟨himp c s hs h.1, fun t ht => ih (hstep c s t hs ht) (h.2 t ht)⟩

/-- Two guards that agree, given an invariant of all steps. -/
theorem meets_congr {guard' : ι → σ → Prop} {P : σ → Prop}
    (hstep : ∀ c s s', P s → step c s = some s' → P s') {cs : List ι}
    (hiff : ∀ c ∈ cs, ∀ s, P s → (guard c s ↔ guard' c s)) (hs : P s) :
    Meets guard step cs s ↔ Meets guard' step cs s := by
  induction cs generalizing s with
  | nil => exact Iff.rfl
  | cons c cs ih =>
    refine and_congr (hiff c (List.mem_cons_self ..) s hs) (forall₂_congr fun t ht => ?_)
    exact ih (fun d hd => hiff d (List.mem_cons_of_mem _ hd)) (hstep c s t hs ht)

/-- When no step fails, the state before a step is known. -/
theorem meets_total_iff {f : σ → ι → σ} {cs : List ι} :
    Meets guard (fun c s => some (f s c)) cs s ↔
      ∀ pre c post, cs = pre ++ c :: post → guard c (pre.foldl f s) := by
  induction cs generalizing s with
  | nil => exact iff_of_true trivial fun pre c post h => absurd h.symm (by simp)
  | cons d cs ih =>
    simp only [Meets, Option.some.injEq, forall_eq', ih]
    constructor
    · rintro ⟨hd, hcs⟩ pre c post hsplit
      cases pre with
      | nil =>
        obtain ⟨rfl, -⟩ := List.cons.inj hsplit
        exact hd
      | cons e pre =>
        obtain ⟨rfl, hrest⟩ := List.cons.inj hsplit
        exact hcs pre c post hrest
    · intro h
      exact ⟨h [] d cs rfl, fun pre c post hsplit => h (d :: pre) c post (by rw [hsplit]; rfl)⟩

/-- A run of steps that check the guard is a guarded run. -/
theorem meets_of_checked {step' : ι → σ → Option σ}
    (hchecked : ∀ c s s', step' c s = some s' → guard c s ∧ step c s = some s') {cs : List ι}
    (h : runAll step' cs s = some s') : Meets guard step cs s ∧ runAll step cs s = some s' := by
  induction cs generalizing s with
  | nil => exact ⟨trivial, h⟩
  | cons c cs ih =>
    obtain ⟨t, ht, hrest⟩ := runAll_cons_eq_some.1 h
    obtain ⟨hguard, hstep⟩ := hchecked c s t ht
    obtain ⟨hmeets, hrun⟩ := ih hrest
    refine ⟨⟨hguard, fun u hu => ?_⟩, runAll_cons_eq_some.2 ⟨t, hstep, hrun⟩⟩
    rw [hstep] at hu
    cases hu
    exact hmeets

end

/-! ## What a run reports -/

theorem mem_elim_nil {α : Type*} {o : Option σ} {f : σ → List α} {a : α} :
    a ∈ o.elim [] f ↔ ∃ s, o = some s ∧ a ∈ f s := by
  cases o <;> simp

/-- What the steps of a run report, up to the first one that fails. -/
def runLog {α : Type*} (log : ι → σ → List α) (step : ι → σ → Option σ) : List ι → σ → List α
  | [], _ => []
  | c :: cs, s => log c s ++ (step c s).elim [] (runLog log step cs)

section

variable {α : Type*} {log : ι → σ → List α} {step : ι → σ → Option σ} {s s' : σ}

theorem runLog_cons (c : ι) (cs : List ι) :
    runLog log step (c :: cs) s = log c s ++ (step c s).elim [] (runLog log step cs) := rfl

/-- One more step after a run that comes to its end. -/
theorem runLog_concat {cs : List ι} (c : ι) (h : runAll step cs s = some s') :
    runLog log step (cs ++ [c]) s = runLog log step cs s ++ log c s' := by
  induction cs generalizing s with
  | nil =>
    cases h
    rw [List.nil_append, runLog_cons]
    cases step c s' <;> exact List.append_nil _
  | cons d cs ih =>
    obtain ⟨t, ht, hrest⟩ := runAll_cons_eq_some.1 h
    rw [List.cons_append, runLog_cons, runLog_cons, ht, Option.elim_some, Option.elim_some,
      ih hrest, List.append_assoc]

theorem forall_mem_runLog {P : α → Prop} {cs : List ι} :
    (∀ a ∈ runLog log step cs s, P a) ↔ Meets (fun c s => ∀ a ∈ log c s, P a) step cs s := by
  induction cs generalizing s with
  | nil => exact iff_of_true (fun a ha => absurd ha List.not_mem_nil) trivial
  | cons c cs ih =>
    rw [runLog_cons, List.forall_mem_append, Meets]
    refine and_congr_right fun _ => ?_
    cases step c s with
    | none =>
      exact iff_of_true (fun a ha => absurd ha List.not_mem_nil)
        fun t ht => absurd ht.symm (Option.some_ne_none t)
    | some t => simp only [Option.elim_some, Option.some.injEq, forall_eq', ih]

/-- What all steps report while an invariant holds, the run reports. -/
theorem runLog_invariant {P : σ → Prop} {Q : α → Prop} {cs : List ι}
    (hstep : ∀ c ∈ cs, ∀ s s', P s → step c s = some s' → P s')
    (hlog : ∀ c ∈ cs, ∀ s, P s → ∀ a ∈ log c s, Q a) (hs : P s) :
    ∀ a ∈ runLog log step cs s, Q a := by
  induction cs generalizing s with
  | nil => exact fun a ha => absurd ha List.not_mem_nil
  | cons c cs ih =>
    intro a ha
    rcases List.mem_append.1 ha with ha | ha
    · exact hlog c (List.mem_cons_self ..) s hs a ha
    · obtain ⟨t, ht, ha⟩ := mem_elim_nil.1 ha
      exact ih (fun d hd => hstep d (List.mem_cons_of_mem _ hd))
        (fun d hd => hlog d (List.mem_cons_of_mem _ hd))
        (hstep c (List.mem_cons_self ..) s t hs ht) a ha

end

/-- A step, when its guard holds. -/
def guarded (guard : ι → σ → Prop) [∀ c s, Decidable (guard c s)] (step : ι → σ → Option σ)
    (c : ι) (s : σ) : Option σ :=
  if guard c s then step c s else none

theorem guarded_eq_some {guard : ι → σ → Prop} [∀ c s, Decidable (guard c s)]
    {step : ι → σ → Option σ} {c : ι} {s s' : σ} (h : guarded guard step c s = some s') :
    guard c s ∧ step c s = some s' := by
  unfold guarded at h
  split at h
  · rename_i hguard
    exact ⟨hguard, h⟩
  · cases h

end Cidl
