import Mathlib.Logic.Basic

/-!
# Runs of programs with a state and exceptions

A run ends with a result and a state or with an exception and a state. A run that ends with
a result is taken apart at each bind; a run of a known first step is the run of the rest.
-/

namespace Runs

variable {ε σ α β : Type} {s s' s'' : σ}

/-! ### Successful runs -/

theorem bind_ok {x : EStateM ε σ α} {f : α → EStateM ε σ β} {b : β} :
    (x >>= f) s = .ok b s'' ↔ ∃ a s', x s = .ok a s' ∧ f a s' = .ok b s'' := by
  show EStateM.bind x f s = _ ↔ _
  rw [EStateM.bind]
  cases x s with
  | ok a t => simp [and_assoc]
  | error e t => simp

theorem map_ok {x : EStateM ε σ α} {f : α → β} {b : β} : (f <$> x) s = .ok b s'' ↔ ∃ a, x s = .ok a s'' ∧ f a = b := by
  show EStateM.map f x s = _ ↔ _
  rw [EStateM.map]
  cases x s with
  | ok a t => simp [and_assoc, and_comm, eq_comm]
  | error e t => simp

theorem pure_ok {a b : α} : (pure a : EStateM ε σ α) s = .ok b s' ↔ a = b ∧ s = s' := by
  show EStateM.Result.ok a s = _ ↔ _
  simp

theorem throw_ok {e : ε} {a : α} : (throw e : EStateM ε σ α) s = .ok a s' ↔ False := by
  show EStateM.Result.error e s = _ ↔ _
  simp

theorem get_ok {a : σ} : (get : EStateM ε σ σ) s = .ok a s' ↔ s = a ∧ s = s' := by
  show EStateM.Result.ok s s = _ ↔ _
  simp

theorem set_ok {t : σ} {a : PUnit} : (set t : EStateM ε σ PUnit) s = .ok a s' ↔ t = s' := by
  show EStateM.Result.ok _ t = _ ↔ _
  simp

theorem modify_ok {f : σ → σ} {a : PUnit} : (modify f : EStateM ε σ PUnit) s = .ok a s' ↔ f s = s' := by
  show EStateM.Result.ok _ (f s) = _ ↔ _
  simp

/-! ### First steps -/

theorem bind_run {x : EStateM ε σ α} {f : α → EStateM ε σ β} {a : α} (h : x s = .ok a s') : (x >>= f) s = f a s' := by
  show EStateM.bind x f s = _
  rw [EStateM.bind, h]

theorem bind_throw {x : EStateM ε σ α} {f : α → EStateM ε σ β} {e : ε} (h : x s = .error e s') :
    (x >>= f) s = .error e s' := by
  show EStateM.bind x f s = _
  rw [EStateM.bind, h]

theorem get_bind (f : σ → EStateM ε σ β) (s : σ) : (get >>= f) s = f s s := rfl

theorem set_bind (t : σ) (f : PUnit → EStateM ε σ β) (s : σ) : (set t >>= f) s = f ⟨⟩ t := rfl

theorem modify_bind (g : σ → σ) (f : PUnit → EStateM ε σ β) (s : σ) : (modify g >>= f) s = f ⟨⟩ (g s) := rfl

/-! ### Results -/

/-- What a run returns and leaves, nothing if it throws. -/
def result : EStateM.Result ε σ α → Option (α × σ)
  | .ok a s => some (a, s)
  | .error _ _ => none

theorem result_eq_some {r : EStateM.Result ε σ α} {a : α} (h : result r = some (a, s)) : r = .ok a s := by
  cases r with
  | ok b t =>
    obtain ⟨rfl, rfl⟩ := Prod.mk.inj (Option.some.inj h)
    rfl
  | error e t => cases h

/-! ### Ends of runs -/

/-- The state at the end of a run, also of one that throws. -/
def final : EStateM.Result ε σ α → σ
  | .ok _ s => s
  | .error _ s => s

/-- What holds before a run holds at its end, also if it throws. -/
def Keeps (P : σ → Prop) (x : EStateM ε σ α) : Prop := ∀ s, P s → P (final (x s))

variable {P : σ → Prop}

theorem keeps_pure (a : α) : Keeps P (pure a : EStateM ε σ α) := fun _ h => h

theorem keeps_throw (e : ε) : Keeps P (throw e : EStateM ε σ α) := fun _ h => h

/-- The state of a bind that goes on is that of its second part. -/
theorem final_bind {x : EStateM ε σ α} {f : α → EStateM ε σ β} :
    (∃ e, x s = .error e (final ((x >>= f) s))) ∨ ∃ a s', x s = .ok a s' ∧ (x >>= f) s = f a s' := by
  show (∃ e, x s = .error e (final (EStateM.bind x f s))) ∨ ∃ a s', _ ∧ EStateM.bind x f s = _
  rw [EStateM.bind]
  cases x s with
  | ok a t => exact Or.inr ⟨a, t, rfl, rfl⟩
  | error e t => exact Or.inl ⟨e, rfl⟩

/-- The second part of a bind keeps what holds at the end of the first. -/
theorem final_bind_keeps {x : EStateM ε σ α} {f : α → EStateM ε σ β} (hx : P (final (x s))) (hf : ∀ a, Keeps P (f a)) :
    P (final ((x >>= f) s)) := by
  rcases final_bind (x := x) (f := f) (s := s) with ⟨e, he⟩ | ⟨a, s', hok, heq⟩
  · rw [he] at hx
    exact hx
  · rw [heq]
    rw [hok] at hx
    exact hf a s' hx

theorem Keeps.bind {x : EStateM ε σ α} {f : α → EStateM ε σ β} (hx : Keeps P x) (hf : ∀ a, Keeps P (f a)) : Keeps P (x >>= f) :=
  fun s hs => final_bind_keeps (hx s hs) hf

/-- A run that reads the state goes on with the state that it has read. -/
theorem keeps_get_bind {f : σ → EStateM ε σ β} (hf : ∀ s, P s → P (final (f s s))) : Keeps P (get >>= f) := hf

theorem Keeps.ite {c : Prop} [Decidable c] {x y : EStateM ε σ α} (hx : Keeps P x) (hy : Keeps P y) : Keeps P (if c then x else y) := by
  split
  · exact hx
  · exact hy

/-! ### Runs from two states -/

/-- The same end of a run, with the image of its state. -/
def onFinal (f : σ → σ) : EStateM.Result ε σ α → EStateM.Result ε σ α
  | .ok a s => .ok a (f s)
  | .error e s => .error e (f s)

theorem onFinal_eq_ok {f : σ → σ} {r : EStateM.Result ε σ α} {a : α} (h : onFinal f r = .ok a s') :
    ∃ s, r = .ok a s ∧ f s = s' := by
  cases r with
  | ok b t =>
    obtain ⟨rfl, rfl⟩ := EStateM.Result.ok.inj h
    exact ⟨t, rfl, rfl⟩
  | error e t => cases h

/-- From the image of a state that has `P` the run is that from the state, up to the image; one that returns
leaves a state that has `Q`. -/
structure Commutes (f : σ → σ) (P : σ → Prop) (x : EStateM ε σ α) (Q : α → σ → Prop) : Prop where
  run : ∀ s, P s → x (f s) = onFinal f (x s)
  post : ∀ s a s', P s → x s = .ok a s' → Q a s'

variable {f : σ → σ} {P P' : σ → Prop} {Q Q' : α → σ → Prop} {R : β → σ → Prop}

theorem Commutes.mono {x : EStateM ε σ α} (h : Commutes f P x Q) (hP : ∀ s, P' s → P s) (hQ : ∀ a s, Q a s → Q' a s) :
    Commutes f P' x Q' :=
  ⟨fun s hs => h.run s (hP s hs), fun s a s' hs hx => hQ a s' (h.post s a s' (hP s hs) hx)⟩

theorem Commutes.bind {x : EStateM ε σ α} {g : α → EStateM ε σ β} (hx : Commutes f P x Q) (hg : ∀ a, Commutes f (Q a) (g a) R) :
    Commutes f P (x >>= g) R where
  run s hs := by
    have hrun := hx.run s hs
    show EStateM.bind x g (f s) = onFinal f (EStateM.bind x g s)
    rw [EStateM.bind, EStateM.bind]
    cases hr : x s with
    | ok a s' =>
      rw [hr] at hrun
      rw [hrun]
      exact (hg a).run s' (hx.post s a s' hs hr)
    | error e s' =>
      rw [hr] at hrun
      rw [hrun]
      rfl
  post s b s'' hs h := by
    obtain ⟨a, s', ha, hb⟩ := bind_ok.mp h
    exact (hg a).post s' b s'' (hx.post s a s' hs ha) hb

/-- What does not depend on the state is known. -/
theorem commutes_of_known {p : Prop} {x : EStateM ε σ α} (h : p → Commutes f P x Q) : Commutes f (fun s => P s ∧ p) x Q :=
  ⟨fun s hs => (h hs.2).run s hs.1, fun s a s' hs => (h hs.2).post s a s' hs.1⟩

theorem commutes_pure {a : α} (h : ∀ s, P s → Q a s) : Commutes f P (pure a : EStateM ε σ α) Q :=
  ⟨fun _ _ => rfl, fun s b s' hs hb => by
    obtain ⟨rfl, rfl⟩ := pure_ok.mp hb
    exact h s hs⟩

theorem commutes_throw (e : ε) : Commutes f P (throw e : EStateM ε σ α) Q :=
  ⟨fun _ _ => rfl, fun _ _ _ _ h => (throw_ok.mp h).elim⟩

theorem commutes_modify {g : σ → σ} {Q : PUnit → σ → Prop} (hg : ∀ s, P s → g (f s) = f (g s)) (hQ : ∀ s, P s → Q ⟨⟩ (g s)) :
    Commutes f P (modify g : EStateM ε σ PUnit) Q :=
  ⟨fun s hs => by
    show EStateM.Result.ok PUnit.unit (g (f s)) = EStateM.Result.ok PUnit.unit (f (g s))
    rw [hg s hs], fun s a s' hs h => by
    obtain rfl := modify_ok.mp h
    exact hQ s hs⟩

/-- A run that reads of the state what its image has too. -/
theorem commutes_get_bind {g : σ → EStateM ε σ α} (hg : ∀ s, P s → g (f s) (f s) = onFinal f (g s s))
    (hQ : ∀ s a s', P s → g s s = .ok a s' → Q a s') : Commutes f P (get >>= g) Q :=
  ⟨hg, hQ⟩

theorem Commutes.ite {c : Prop} [Decidable c] {x y : EStateM ε σ α} (hx : Commutes f P x Q) (hy : Commutes f P y Q) :
    Commutes f P (if c then x else y) Q := by
  split
  · exact hx
  · exact hy

end Runs
