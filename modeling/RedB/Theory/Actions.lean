import Mathlib.Data.List.Basic

/-!
# Runs of actions

A system takes actions one after the other, where they are enabled. What holds at the start and
is kept by every action holds at the end of a run (`run_invariant`), and a run is a run of its
first actions and of the others behind it (`run_append`).
-/

namespace Actions

variable {σ α : Type} {step : σ → α → Option σ} {s s' : σ}

/-- A run of actions, nothing if one of them is not enabled. -/
def run (step : σ → α → Option σ) : σ → List α → Option σ
  | s, [] => some s
  | s, a :: as => (step s a).bind fun s' => run step s' as

/-- All actions of a run are taken where they are allowed. -/
def Always (step : σ → α → Option σ) (ok : σ → α → Prop) (s : σ) (as : List α) : Prop :=
  ∀ pre a post s', as = pre ++ a :: post → run step s pre = some s' → ok s' a

/-- Something holds in all states of a run. -/
def Throughout (step : σ → α → Option σ) (P : σ → Prop) (s : σ) (as : List α) : Prop :=
  ∀ pre post s', as = pre ++ post → run step s pre = some s' → P s'

theorem run_cons {a : α} {as : List α} : run step s (a :: as) = some s' ↔ ∃ t, step s a = some t ∧ run step t as = some s' :=
  Option.bind_eq_some_iff

theorem run_append {as as' : List α} : run step s (as ++ as') = some s' ↔ ∃ t, run step s as = some t ∧ run step t as' = some s' := by
  induction as generalizing s with
  | nil =>
    refine ⟨fun h => ⟨s, rfl, h⟩, ?_⟩
    rintro ⟨t, ht, h⟩
    obtain rfl := Option.some.inj ht
    exact h
  | cons a as ih =>
    rw [List.cons_append, run_cons]
    constructor
    · rintro ⟨u, hu, h⟩
      obtain ⟨t, ht, h'⟩ := ih.mp h
      exact ⟨t, run_cons.mpr ⟨u, hu, ht⟩, h'⟩
    · rintro ⟨t, ht, h⟩
      obtain ⟨u, hu, ht'⟩ := run_cons.mp ht
      exact ⟨u, hu, ih.mpr ⟨t, ht', h⟩⟩

theorem Always.head {ok : σ → α → Prop} {a : α} {as : List α} (h : Always step ok s (a :: as)) : ok s a := h [] a as s rfl rfl

theorem Always.tail {ok : σ → α → Prop} {a : α} {as : List α} {t : σ} (h : Always step ok s (a :: as)) (ht : step s a = some t) :
    Always step ok t as := by
  rintro pre b post s' rfl hs'
  exact h (a :: pre) b post s' rfl (run_cons.mpr ⟨t, ht, hs'⟩)

theorem Always.left {ok : σ → α → Prop} {as as' : List α} (h : Always step ok s (as ++ as')) : Always step ok s as := by
  rintro pre b post s' rfl hs'
  exact h pre b (post ++ as') s' (by rw [List.append_assoc, List.cons_append]) hs'

theorem Always.right {ok : σ → α → Prop} {as as' : List α} {t : σ} (h : Always step ok s (as ++ as')) (ht : run step s as = some t) :
    Always step ok t as' := by
  rintro pre b post s' rfl hs'
  exact h (as ++ pre) b post s' (by rw [List.append_assoc]) (run_append.mpr ⟨t, ht, hs'⟩)

theorem Throughout.start {P : σ → Prop} {as : List α} (h : Throughout step P s as) : P s := h [] as s rfl rfl

theorem Throughout.tail {P : σ → Prop} {a : α} {as : List α} {t : σ} (h : Throughout step P s (a :: as)) (ht : step s a = some t) :
    Throughout step P t as := by
  rintro pre post s' rfl hs'
  exact h (a :: pre) post s' rfl (run_cons.mpr ⟨t, ht, hs'⟩)

theorem always_nil {ok : σ → α → Prop} : Always step ok s [] := by
  intro pre a post s' h
  exact absurd h.symm (List.append_ne_nil_of_right_ne_nil _ (List.cons_ne_nil _ _))

theorem always_cons {ok : σ → α → Prop} {a : α} {as : List α} (ha : ok s a) (h : ∀ t, step s a = some t → Always step ok t as) :
    Always step ok s (a :: as) := by
  intro pre b post s' heq hs'
  cases pre with
  | nil =>
    obtain ⟨rfl, rfl⟩ := List.cons.inj heq
    exact Option.some.inj hs' ▸ ha
  | cons c pre =>
    obtain ⟨rfl, rfl⟩ := List.cons.inj heq
    obtain ⟨t, ht, hs'⟩ := run_cons.mp hs'
    exact h t ht pre b post s' rfl hs'

theorem throughout_nil {P : σ → Prop} (hs : P s) : Throughout step P s [] := by
  intro pre post s' heq hs'
  obtain ⟨rfl, -⟩ := List.append_eq_nil_iff.mp heq.symm
  exact Option.some.inj hs' ▸ hs

theorem throughout_cons {P : σ → Prop} {a : α} {as : List α} (hs : P s) (h : ∀ t, step s a = some t → Throughout step P t as) :
    Throughout step P s (a :: as) := by
  intro pre post s' heq hs'
  cases pre with
  | nil => exact Option.some.inj hs' ▸ hs
  | cons c pre =>
    obtain ⟨rfl, rfl⟩ := List.cons.inj heq
    obtain ⟨t, ht, hs'⟩ := run_cons.mp hs'
    exact h t ht pre post s' rfl hs'

/-- What every action keeps holds at the end of a run. -/
theorem run_invariant {I : σ → Prop} {ok : σ → α → Prop} {as : List α}
    (hstep : ∀ s a s', I s → ok s a → step s a = some s' → I s') (hs : I s) (hok : Always step ok s as)
    (h : run step s as = some s') : I s' := by
  induction as generalizing s with
  | nil => exact Option.some.inj h ▸ hs
  | cons a as ih =>
    obtain ⟨t, ht, h'⟩ := run_cons.mp h
    exact ih (hstep s a t hs hok.head ht) (hok.tail ht) h'

end Actions
