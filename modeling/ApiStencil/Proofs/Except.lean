/-
ApiStencil/Proofs/Except.lean

Laws of computations that can fail: when a sequence of steps succeeds, how a change of
the errors goes through it, which error a sequence has (`errorOf?_mapM`), and when two
sequences agree in succeeding (`Agree`).
-/
import Mathlib.Data.List.Forall2

namespace ApiStencil

variable {ε ε' α β γ : Type}

theorem ok_bind (a : α) (f : α → Except ε β) : Except.ok a >>= f = f a := rfl

theorem error_bind (e : ε) (f : α → Except ε β) : Except.error e >>= f = .error e := rfl

/-- Two steps succeed if the first does and the second does with its result. -/
theorem bind_eq_ok_iff {x : Except ε α} {f : α → Except ε β} {b : β} :
    x >>= f = .ok b ↔ ∃ a, x = .ok a ∧ f a = .ok b := by
  cases x <;> simp [bind, Except.bind]

theorem bind_eq_error_iff {x : Except ε α} {f : α → Except ε β} {e : ε} :
    x >>= f = .error e ↔ x = .error e ∨ ∃ a, x = .ok a ∧ f a = .error e := by
  cases x <;> simp [bind, Except.bind]

theorem map_eq_ok_iff {x : Except ε α} {f : α → β} {b : β} :
    x.map f = .ok b ↔ ∃ a, x = .ok a ∧ f a = b := by
  cases x <;> simp [Except.map]

theorem map_eq_error_iff {x : Except ε α} {f : α → β} {e : ε} :
    x.map f = .error e ↔ x = .error e := by
  cases x <;> simp [Except.map]

theorem toOption_eq_some_iff {x : Except ε α} {a : α} : x.toOption = some a ↔ x = .ok a := by
  cases x <;> simp [Except.toOption]

theorem toOption_map_eq_some_iff {x : Except ε α} {f : α → β} {b : β} :
    x.toOption.map f = some b ↔ ∃ a, x = .ok a ∧ f a = b := by
  cases x <;> simp [Except.toOption]

theorem mapError_eq_ok_iff {x : Except ε α} {g : ε → ε'} {a : α} :
    x.mapError g = .ok a ↔ x = .ok a := by
  cases x with
  | error e => exact ⟨nofun, nofun⟩
  | ok b => exact ⟨fun h => congrArg _ (Except.ok.inj h), fun h => congrArg _ (Except.ok.inj h)⟩

theorem mapError_eq_error_iff {x : Except ε α} {g : ε → ε'} {e : ε'} :
    x.mapError g = .error e ↔ ∃ cause, x = .error cause ∧ g cause = e := by
  cases x <;> simp [Except.mapError]

theorem map_eq_bind (f : α → β) (x : Except ε α) : x.map f = x >>= fun a => .ok (f a) := by
  cases x <;> rfl

theorem isOk_iff {x : Except ε α} : x.isOk = true ↔ ∃ a, x = .ok a := by
  cases x <;> simp [Except.isOk, Except.toBool]

theorem isOk_map (f : α → β) (x : Except ε α) : (x.map f).isOk = x.isOk := by
  cases x <;> rfl

theorem map_bind (g : β → γ) (x : Except ε α) (f : α → Except ε β) :
    (x >>= f).map g = x >>= fun a => (f a).map g := by
  cases x <;> rfl

theorem bind_map (g : α → β) (x : Except ε α) (f : β → Except ε γ) :
    x.map g >>= f = x >>= fun a => f (g a) := by
  cases x <;> rfl

/-- Changing the result of each step changes the results of the sequence. -/
theorem mapM_map_results (g : β → γ) (f : α → Except ε β) (l : List α) :
    (l.mapM fun a => (f a).map g) = (l.mapM f).map (List.map g) := by
  induction l with
  | nil => rfl
  | cons a r ih =>
    rw [List.mapM_cons, List.mapM_cons, ih]
    cases f a with
    | error e => rfl
    | ok b => cases r.mapM f <;> rfl

/-- The results of a sequence of steps that all succeed are those of its steps. -/
theorem forall₂_of_mapM {f : α → Except ε β} {l : List α} {results : List β}
    (h : l.mapM f = .ok results) : List.Forall₂ (fun a b => f a = .ok b) l results := by
  induction l generalizing results with
  | nil =>
    cases h
    exact .nil
  | cons a r ih =>
    rw [List.mapM_cons] at h
    obtain ⟨b, hb, h⟩ := bind_eq_ok_iff.1 h
    obtain ⟨bs, hbs, h⟩ := bind_eq_ok_iff.1 h
    cases h
    exact .cons hb (ih hbs)

/-- In lists that correspond, every item of the second has one of the first. -/
theorem exists_of_forall₂ {R : α → β → Prop} {l : List α} {l' : List β}
    (h : List.Forall₂ R l l') {b : β} (hb : b ∈ l') : ∃ a ∈ l, R a b := by
  induction h with
  | nil => cases hb
  | cons hab _ ih =>
    rcases List.mem_cons.1 hb with rfl | hb
    · exact ⟨_, List.mem_cons_self, hab⟩
    · obtain ⟨a, ha, hr⟩ := ih hb
      exact ⟨a, List.mem_cons_of_mem _ ha, hr⟩

theorem exists_of_mapM {f : α → Except ε β} {l : List α} {results : List β}
    (h : l.mapM f = .ok results) {b : β} (hb : b ∈ results) : ∃ a ∈ l, f a = .ok b :=
  exists_of_forall₂ (forall₂_of_mapM h) hb

/-- A sequence of steps succeeds with what the steps around one of them and that one give. -/
theorem mapM_append_cons_eq_ok_iff {f : α → Except ε β} {done later : List α} {a : α}
    {results : List β} :
    (done ++ a :: later).mapM f = .ok results ↔ ∃ before b after, done.mapM f = .ok before ∧
      f a = .ok b ∧ later.mapM f = .ok after ∧ results = before ++ b :: after := by
  rw [List.mapM_append, List.mapM_cons]
  simp only [bind_eq_ok_iff]
  constructor
  · rintro ⟨before, hbefore, _, ⟨b, hb, after, hafter, ⟨⟩⟩, ⟨⟩⟩
    exact ⟨before, b, after, hbefore, hb, hafter, rfl⟩
  · rintro ⟨before, b, after, hbefore, hb, hafter, rfl⟩
    exact ⟨before, hbefore, _, ⟨b, hb, after, hafter, rfl⟩, rfl⟩

/-- A sequence of steps fails at the first step that fails. -/
theorem mapM_eq_error_iff {f : α → Except ε β} {l : List α} {e : ε} :
    l.mapM f = .error e ↔ ∃ done a later results, l = done ++ a :: later ∧
      done.mapM f = .ok results ∧ f a = .error e := by
  constructor
  · intro h
    induction l with
    | nil => cases h
    | cons x r ih =>
      rw [List.mapM_cons] at h
      rcases bind_eq_error_iff.1 h with hx | ⟨b, hb, h⟩
      · exact ⟨[], x, r, [], rfl, rfl, hx⟩
      · rcases bind_eq_error_iff.1 h with hr | ⟨_, _, ⟨⟩⟩
        obtain ⟨done, a, later, results, rfl, hd, ha⟩ := ih hr
        refine ⟨x :: done, a, later, b :: results, rfl, ?_, ha⟩
        rw [List.mapM_cons, hb, hd]
        rfl
  · rintro ⟨done, a, later, results, rfl, hd, ha⟩
    rw [List.mapM_append, hd, List.mapM_cons, ha]
    rfl

theorem exists_bind_eq_ok {x : Except ε α} {f : α → Except ε β} (hx : ∃ a, x = .ok a)
    (hf : ∀ a, ∃ b, f a = .ok b) : ∃ b, x >>= f = .ok b := by
  obtain ⟨a, rfl⟩ := hx
  exact hf a

/-- A sequence of steps succeeds if each of them does. -/
theorem exists_mapM_eq_ok {f : α → Except ε β} {l : List α} (h : ∀ a ∈ l, ∃ b, f a = .ok b) :
    ∃ results, l.mapM f = .ok results := by
  induction l with
  | nil => exact ⟨[], rfl⟩
  | cons a r ih =>
    obtain ⟨ha, hr⟩ := List.forall_mem_cons.1 h
    rw [List.mapM_cons]
    exact exists_bind_eq_ok ha fun b => exists_bind_eq_ok (ih hr) fun bs => ⟨b :: bs, rfl⟩

theorem mapError_bind (g : ε → ε') (x : Except ε α) (f : α → Except ε β) :
    (x >>= f).mapError g = x.mapError g >>= fun a => (f a).mapError g := by
  cases x <;> rfl

theorem mapError_map (g : ε → ε') (x : Except ε α) (f : α → β) :
    (x.map f).mapError g = (x.mapError g).map f := by
  cases x <;> rfl

/-- A change of the errors goes through a sequence of steps to each of them. -/
theorem mapM_mapError (g : ε → ε') (f : α → Except ε β) (l : List α) :
    (l.mapM f).mapError g = l.mapM fun a => (f a).mapError g := by
  induction l with
  | nil => rfl
  | cons a r ih =>
    -- the change reaches the first step and, behind it, the rest
    rw [List.mapM_cons, List.mapM_cons, mapError_bind]
    simp only [mapError_bind, ih]
    rfl

/-! ### Errors -/

/-- The error of a computation that fails. -/
def errorOf? : Except ε α → Option ε
  | .error e => some e
  | .ok _ => none

theorem errorOf?_eq_some_iff {x : Except ε α} {e : ε} : errorOf? x = some e ↔ x = .error e := by
  cases x <;> simp [errorOf?]

theorem errorOf?_eq_none_iff {x : Except ε α} : errorOf? x = none ↔ ∃ a, x = .ok a := by
  cases x <;> simp [errorOf?]

theorem errorOf?_mapError (g : ε → ε') (x : Except ε α) :
    errorOf? (x.mapError g) = (errorOf? x).map g := by
  cases x <;> rfl

/-- If the error of the second step does not depend on the first, it is the error unless the first
step fails. -/
theorem errorOf?_bind {f : α → Except ε β} {o : Option ε} (h : ∀ a, errorOf? (f a) = o)
    (x : Except ε α) : errorOf? (x >>= f) = (errorOf? x).or o := by
  cases x with
  | error e => rfl
  | ok a => exact h a

theorem errorOf?_bind_ok (f : α → β) (x : Except ε α) :
    errorOf? (x >>= fun a => .ok (f a)) = errorOf? x := by
  cases x <;> rfl

/-- The error of a sequence of steps is that of the first step that fails. -/
theorem errorOf?_mapM (f : α → Except ε β) (l : List α) :
    errorOf? (l.mapM f) = l.findSome? fun a => errorOf? (f a) := by
  induction l with
  | nil => rfl
  | cons a r ih =>
    rw [List.mapM_cons, List.findSome?_cons, ← ih]
    cases f a with
    | error e => rfl
    | ok b => exact errorOf?_bind_ok _ _

/-! ### Two computations -/

/-- Whether two computations both fail, or both succeed with results that are related. -/
inductive Agree (R : α → β → Prop) : Except ε α → Except ε' β → Prop where
  | ok {a : α} {b : β} (h : R a b) : Agree R (.ok a) (.ok b)
  | error (e : ε) (e' : ε') : Agree R (.error e) (.error e')

namespace Agree

variable {δ : Type} {R : α → β → Prop} {S : γ → δ → Prop} {x : Except ε α} {y : Except ε' β}

theorem refl {R : α → α → Prop} (h : ∀ a, R a a) (x : Except ε α) : Agree R x x := by
  cases x with
  | error e => exact .error e e
  | ok a => exact .ok (h a)

theorem imp {R' : α → β → Prop} (h : Agree R x y) (hR : ∀ a b, R a b → R' a b) :
    Agree R' x y := by
  cases h with
  | ok h => exact .ok (hR _ _ h)
  | error e e' => exact .error e e'

theorem bind {f : α → Except ε γ} {g : β → Except ε' δ} (h : Agree R x y)
    (hf : ∀ a b, R a b → Agree S (f a) (g b)) : Agree S (x >>= f) (y >>= g) := by
  cases h with
  | ok h => exact hf _ _ h
  | error e e' => exact .error e e'

theorem mapError {φ φ' : Type} (g : ε → φ) (g' : ε' → φ') (h : Agree R x y) :
    Agree R (x.mapError g) (y.mapError g') := by
  cases h with
  | ok h => exact .ok h
  | error e e' => exact .error (g e) (g' e')

/-- Sequences of steps that agree one by one agree in their results. -/
theorem mapM {f : α → Except ε γ} {g : β → Except ε' δ} {l : List α} {l' : List β}
    (h : List.Forall₂ R l l') (hf : ∀ a ∈ l, ∀ b ∈ l', R a b → Agree S (f a) (g b)) :
    Agree (List.Forall₂ S) (l.mapM f) (l'.mapM g) := by
  induction h with
  -- the induction is on the correspondence; the hypothesis about the rest needs its members only
  | nil => exact .ok .nil
  | cons hab _ ih =>
    have hrest := ih fun a ha b hb => hf a (List.mem_cons_of_mem _ ha) b (List.mem_cons_of_mem _ hb)
    rw [List.mapM_cons, List.mapM_cons]
    refine (hf _ List.mem_cons_self _ List.mem_cons_self hab).bind fun c d hcd => ?_
    exact hrest.bind fun cs ds hcs => .ok (.cons hcd hcs)

end Agree

end ApiStencil
