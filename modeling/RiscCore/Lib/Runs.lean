import Mathlib.Tactic.Common

/-!
# `Lib.Runs` — runs of a guarded step function

`step` is a deterministic system driven by labels (`none` is a fault); `ok s op` says that the
environment may issue `op` in state `s`. `Reach` collects the states of all runs that respect `ok`, and
the invariant rule turns one step lemma into a statement about every run.
-/

namespace Runs

variable {σ ι : Type} {step : σ → ι → Option σ} {ok ok' : σ → ι → Prop} {s t u : σ}

/-- The states reachable from `s` by permitted, non-faulting steps. -/
inductive Reach (step : σ → ι → Option σ) (ok : σ → ι → Prop) (s : σ) : σ → Prop where
  | refl : Reach step ok s s
  | tail {t u : σ} {op : ι} : Reach step ok s t → ok t op → step t op = some u → Reach step ok s u

/-- **The invariant rule.** -/
theorem Reach.invariant {I : σ → Prop} (h0 : I s)
    (hstep : ∀ t op u, I t → ok t op → step t op = some u → I u) (h : Reach step ok s t) : I t := by
  induction h with
  | refl => exact h0
  | tail _ hok hst ih => exact hstep _ _ _ ih hok hst

/-- A permissive environment reaches at least as much. -/
theorem Reach.mono (hok : ∀ t op, ok t op → ok' t op) (h : Reach step ok s t) : Reach step ok' s t := by
  induction h with
  | refl => exact Reach.refl
  | tail _ hp hst ih => exact Reach.tail ih (hok _ _ hp) hst

theorem Reach.single {op : ι} (hok : ok s op) (hst : step s op = some t) : Reach step ok s t :=
  Reach.tail Reach.refl hok hst

theorem Reach.trans (h₁ : Reach step ok s t) (h₂ : Reach step ok t u) : Reach step ok s u := by
  induction h₂ with
  | refl => exact h₁
  | tail _ hok hst ih => exact Reach.tail ih hok hst

/-! ## Runs as lists of operations -/

/-- The state after issuing `ops` from `s`. -/
def run (step : σ → ι → Option σ) : σ → List ι → Option σ
  | s, [] => some s
  | s, op :: ops => (step s op).bind fun t => run step t ops

/-- `Q` holds of every step of the run that issues `ops` from `s`, up to a fault. -/
def Always (step : σ → ι → Option σ) (Q : σ → ι → Prop) : σ → List ι → Prop
  | _, [] => True
  | s, op :: ops => Q s op ∧ ∀ t ∈ step s op, Always step Q t ops

instance Always.decidable {Q : σ → ι → Prop} [∀ s op, Decidable (Q s op)] :
    ∀ (ops : List ι) (s : σ), Decidable (Always step Q s ops)
  | [], _ => isTrue trivial
  | op :: ops, s =>
    have : DecidablePred fun t => Always step Q t ops := Always.decidable ops
    inferInstanceAs (Decidable (Q s op ∧ ∀ t ∈ step s op, Always step Q t ops))

/-- A run whose steps are all permitted is a reachability proof. -/
theorem Reach.of_run : ∀ (ops : List ι) {s t : σ}, Always step ok s ops → run step s ops = some t →
    Reach step ok s t := by
  intro ops
  induction ops with
  | nil =>
      intro s t _ hrun
      exact Option.some.inj hrun ▸ Reach.refl
  | cons op ops ih =>
      rintro s t ⟨hok, hrest⟩ hrun
      obtain ⟨u, hst, hrun⟩ := Option.bind_eq_some_iff.mp hrun
      exact (Reach.single hok hst).trans (ih (hrest u hst) hrun)

/-- What holds of every step of a run holds of every step of its beginning. -/
theorem Always.of_append {Q : σ → ι → Prop} : ∀ (pre : List ι) {post : List ι} {s : σ},
    Always step Q s (pre ++ post) → Always step Q s pre := by
  intro pre
  induction pre with
  | nil => exact fun _ => trivial
  | cons op pre ih =>
      rintro post s ⟨hq, hrest⟩
      exact ⟨hq, fun t ht => ih (hrest t ht)⟩

/-- Two step properties that agree in reachable states agree on permitted runs. -/
theorem Always.congr {Q Q' : σ → ι → Prop}
    (h : ∀ t op, Reach step ok s t → ok t op → (Q t op ↔ Q' t op)) : ∀ {t : σ} (ops : List ι),
    Reach step ok s t → Always step ok t ops → (Always step Q t ops ↔ Always step Q' t ops) := by
  intro t ops
  induction ops generalizing t with
  | nil => intro _ _; exact Iff.rfl
  | cons op ops ih =>
      rintro hr ⟨hok, hrest⟩
      have hnext : ∀ u ∈ step t op, (Always step Q u ops ↔ Always step Q' u ops) :=
        fun u hst => ih (Reach.tail hr hok hst) (hrest u hst)
      constructor
      · rintro ⟨hq, hqs⟩
        exact ⟨(h t op hr hok).mp hq, fun u hst => (hnext u hst).mp (hqs u hst)⟩
      · rintro ⟨hq, hqs⟩
        exact ⟨(h t op hr hok).mpr hq, fun u hst => (hnext u hst).mpr (hqs u hst)⟩

/-- Two step properties that agree wherever an invariant holds agree on whole runs, if steps with one of them keep the
invariant. -/
theorem Always.iff_of_invariant {I : σ → Prop} {Q Q' : σ → ι → Prop} (hiff : ∀ s op, I s → (Q s op ↔ Q' s op))
    (hstep : ∀ s op, I s → Q' s op → ∀ t ∈ step s op, I t) : ∀ (ops : List ι) {s : σ}, I s →
    (Always step Q s ops ↔ Always step Q' s ops) := by
  intro ops
  induction ops with
  | nil => exact fun _ => Iff.rfl
  | cons op ops ih =>
      intro s hI
      have hnext : Q' s op → ∀ t ∈ step s op, (Always step Q t ops ↔ Always step Q' t ops) :=
        fun hq t ht => ih (hstep s op hI hq t ht)
      constructor
      · rintro ⟨hq, hqs⟩
        have hq' := (hiff s op hI).mp hq
        exact ⟨hq', fun t ht => (hnext hq' t ht).mp (hqs t ht)⟩
      · rintro ⟨hq, hqs⟩
        exact ⟨(hiff s op hI).mpr hq, fun t ht => (hnext hq t ht).mpr (hqs t ht)⟩

theorem run_append (ops ops' : List ι) (s : σ) :
    run step s (ops ++ ops') = (run step s ops).bind fun t => run step t ops' := by
  induction ops generalizing s with
  | nil => rfl
  | cons op ops ih =>
      rw [List.cons_append, run, run, Option.bind_assoc]
      exact congrArg _ (funext ih)

/-- A run in two parts. -/
theorem Always.append_iff {Q : σ → ι → Prop} (ops ops' : List ι) (s : σ) :
    Always step Q s (ops ++ ops') ↔ Always step Q s ops ∧ ∀ t ∈ run step s ops, Always step Q t ops' := by
  induction ops generalizing s with
  | nil => exact ⟨fun h => ⟨trivial, fun t ht => Option.some.inj ht ▸ h⟩, fun h => h.2 s rfl⟩
  | cons op ops ih =>
      constructor
      · rintro ⟨hq, hrest⟩
        refine ⟨⟨hq, fun t ht => ((ih t).mp (hrest t ht)).1⟩, fun u hu => ?_⟩
        obtain ⟨t, ht, hu⟩ := Option.bind_eq_some_iff.mp hu
        exact ((ih t).mp (hrest t ht)).2 u hu
      · rintro ⟨⟨hq, hrest⟩, hlast⟩
        exact ⟨hq, fun t ht => (ih t).mpr ⟨hrest t ht,
          fun u hu => hlast u (Option.bind_eq_some_iff.mpr ⟨t, ht, hu⟩)⟩⟩

/-- **The rule for commuting operations.** Where neighbours may be exchanged, and `P` follows the run, the order
of the operations does not matter. -/
theorem run_perm {P : σ → List ι → Prop} (hnext : ∀ s op ops, P s (op :: ops) → ∀ t ∈ step s op, P t ops)
    (hperm : ∀ s ops ops', P s ops → ops.Perm ops' → P s ops')
    (hswap : ∀ s op op', P s [op, op'] → run step s [op, op'] = run step s [op', op])
    (hinit : ∀ s ops ops', P s (ops ++ ops') → P s ops) {ops ops' : List ι} (h : ops.Perm ops') :
    ∀ {s : σ}, P s ops → run step s ops = run step s ops' := by
  induction h with
  | nil => exact fun _ => rfl
  | @cons op ops ops' _ ih =>
      intro s hP
      rw [run, run]
      cases hst : step s op with
      | none => rfl
      | some t => exact ih (hnext s op ops hP t hst)
  | swap op op' ops =>
      intro s hP
      have hpair := hswap s op' op (hinit s [op', op] ops hP)
      have hsplit : ∀ a b, run step s (a :: b :: ops) = (run step s [a, b]).bind fun t => run step t ops :=
        fun a b => run_append [a, b] ops s
      rw [hsplit, hsplit, hpair]
  | trans h₁ _ ih₁ ih₂ =>
      intro s hP
      exact (ih₁ hP).trans (ih₂ (hperm s _ _ hP h₁))

/-! ## Operations that return something -/

section Results

variable {ρ α : Type} {call : σ → ι → Option (ρ × σ)} {spec : α → ι → Option (ρ × α)}

/-- Issuing `ops` from `s`: what the calls return, in order, and the state after the last one. -/
def trace (call : σ → ι → Option (ρ × σ)) : σ → List ι → Option (List ρ × σ)
  | s, [] => some ([], s)
  | s, op :: ops => (call s op).bind fun p => (trace call p.2 ops).map fun q => (p.1 :: q.1, q.2)

theorem trace_cons_eq_some {s u : σ} {op : ι} {ops : List ι} {rs : List ρ} :
    trace call s (op :: ops) = some (rs, u) ↔
      ∃ r t rs', call s op = some (r, t) ∧ trace call t ops = some (rs', u) ∧ rs = r :: rs' := by
  constructor
  · intro h
    obtain ⟨p, hcall, h⟩ := Option.bind_eq_some_iff.mp h
    obtain ⟨q, hrest, h⟩ := Option.map_eq_some_iff.mp h
    obtain ⟨rfl, rfl⟩ := Prod.mk.inj h
    exact ⟨p.1, p.2, q.1, hcall, hrest, rfl⟩
  · rintro ⟨r, t, rs', hcall, hrest, rfl⟩
    refine Option.bind_eq_some_iff.mpr ⟨(r, t), hcall, ?_⟩
    exact Option.map_eq_some_iff.mpr ⟨(rs', u), hrest, rfl⟩

/-- What the calls of a run return, in order. -/
def results (call : σ → ι → Option (ρ × σ)) (s : σ) (ops : List ι) : Option (List ρ) := (trace call s ops).map Prod.fst

theorem results_cons_eq_some {op : ι} {ops : List ι} {r : ρ} {rs : List ρ} :
    results call s (op :: ops) = some (r :: rs) ↔ ∃ t, call s op = some (r, t) ∧ results call t ops = some rs := by
  constructor
  · intro h
    obtain ⟨⟨rs', u⟩, htrace, heq⟩ := Option.map_eq_some_iff.mp h
    obtain ⟨r', t, rs'', hcall, hrest, rfl⟩ := trace_cons_eq_some.mp htrace
    obtain ⟨rfl, rfl⟩ := List.cons.inj heq
    exact ⟨t, hcall, by rw [results, hrest]; rfl⟩
  · rintro ⟨t, hcall, hrest⟩
    obtain ⟨⟨rs', u⟩, htrace, rfl⟩ := Option.map_eq_some_iff.mp hrest
    rw [results, trace_cons_eq_some.mpr ⟨r, t, rs', hcall, htrace, rfl⟩]
    rfl

/-- **The simulation rule.** A call that does what the specification does, and keeps `R`, does so along every
run the specification permits. -/
theorem trace_simulation {R : α → σ → Prop}
    (hcall : ∀ a s op r b, R a s → spec a op = some (r, b) → ∃ t, call s op = some (r, t) ∧ R b t) :
    ∀ (ops : List ι) {a b : α} {s : σ} {rs : List ρ}, R a s → trace spec a ops = some (rs, b) →
      ∃ t, trace call s ops = some (rs, t) ∧ R b t := by
  intro ops
  induction ops with
  | nil =>
      intro a b s rs hR hspec
      simp only [trace, Option.some.injEq, Prod.mk.injEq] at hspec
      obtain ⟨rfl, rfl⟩ := hspec
      exact ⟨s, rfl, hR⟩
  | cons op ops ih =>
      intro a b s rs hR hspec
      obtain ⟨r, c, rs', hop, hrest, rfl⟩ := trace_cons_eq_some.mp hspec
      obtain ⟨t, ht, hR'⟩ := hcall a s op r c hR hop
      obtain ⟨u, hu, hRu⟩ := ih hR' hrest
      exact ⟨u, trace_cons_eq_some.mpr ⟨r, t, rs', ht, hu, rfl⟩, hRu⟩

/-! ## Results that a specification leaves open -/

variable {Spec : α → ι → ρ → α → Prop}

/-- The specification can do `ops` with these results. -/
inductive Allows (Spec : α → ι → ρ → α → Prop) : α → List ι → List ρ → α → Prop where
  | nil (a : α) : Allows Spec a [] [] a
  | cons {a b c : α} {op : ι} {ops : List ι} {r : ρ} {rs : List ρ} : Spec a op r b → Allows Spec b ops rs c →
      Allows Spec a (op :: ops) (r :: rs) c

/-- **The refinement rule.** A call that returns what the specification allows, and keeps `R`, does so along every
permitted run. -/
theorem trace_refines {R : α → σ → Prop}
    (hcall : ∀ a s op, R a s → ok s op → ∃ r t b, call s op = some (r, t) ∧ Spec a op r b ∧ R b t) :
    ∀ (ops : List ι) {a : α} {s : σ}, R a s → Always (fun s op => (call s op).map Prod.snd) ok s ops →
      ∃ rs t b, trace call s ops = some (rs, t) ∧ Allows Spec a ops rs b ∧ R b t := by
  intro ops
  induction ops with
  | nil => exact fun {a} {s} hR _ => ⟨[], s, a, rfl, Allows.nil a, hR⟩
  | cons op ops ih =>
      rintro a s hR ⟨hok, hrest⟩
      obtain ⟨r, t, b, hop, hspec, hR'⟩ := hcall a s op hR hok
      obtain ⟨rs, u, c, htrace, hall, hRu⟩ := ih hR' (hrest t (Option.map_eq_some_iff.mpr ⟨(r, t), hop, rfl⟩))
      exact ⟨r :: rs, u, c, trace_cons_eq_some.mpr ⟨r, t, rs, hop, htrace, rfl⟩, Allows.cons hspec hall, hRu⟩

end Results

end Runs
