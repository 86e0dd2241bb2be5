import ArrayExpr.Machine

/-!
What the building blocks of a computation do to the machine they start from. Everything said about
runs elsewhere goes through these equations; no later proof opens a computation.
-/

namespace ArrayExpr

/-- Where two steps give a result, the first has given one to the second. -/
theorem exists_of_bind_eq_ok {ε α β : Type} {x : Except ε α} {f : α → Except ε β} {b : β}
    (h : x >>= f = .ok b) : ∃ a, x = .ok a ∧ f a = .ok b := by
  cases x with
  | error fault => cases h
  | ok a => exact ⟨a, rfl, h⟩

namespace Run

variable {α β : Type} (m : Machine)

@[simp]
theorem run_pure (a : α) : (pure a : Run α).run m = (.ok a, m) := rfl

@[simp]
theorem run_throw (fault : Fault) : (throw fault : Run α).run m = (.error fault, m) := rfl

@[simp]
theorem run_modify (f : Machine → Machine) : (modify f : Run PUnit).run m = (.ok ⟨⟩, f m) := rfl

@[simp]
theorem run_raise (source : Option Foreign) (fault : Fault) :
    (raise source fault : Run α).run m = (.error fault, m.noteFault source fault) := rfl

/-- A computation goes on from where its first part has ended, unless that part has failed. -/
theorem run_bind (x : Run α) (f : α → Run β) :
    (x >>= f).run m =
      match x.run m with
      | (.ok a, m') => (f a).run m'
      | (.error fault, m') => (.error fault, m') := by
  simp only [bind, ExceptT.bind, ExceptT.mk, ExceptT.run, StateT.bind, ExceptT.bindCont]
  cases x m with
  | mk r m' => cases r <;> rfl

theorem run_get_bind (f : Machine → Run β) : (get >>= f).run m = (f m).run m := rfl

/-- Where a computation gives a result, its first part has given one to the second. -/
theorem exists_of_run_bind_eq_ok {m m' : Machine} {x : Run α} {f : α → Run β} {b : β}
    (h : (x >>= f).run m = (.ok b, m')) :
    ∃ a m₁, x.run m = (.ok a, m₁) ∧ (f a).run m₁ = (.ok b, m') := by
  rw [run_bind] at h
  cases hrun : x.run m with
  | mk r m₁ =>
      rw [hrun] at h
      cases r with
      | ok a => exact ⟨a, m₁, rfl, h⟩
      | error fault => cases h

/-- Where a computation fails, its first part has failed, or has given a result to the second, which
has. -/
theorem cases_of_run_bind_eq_error {m m' : Machine} {x : Run α} {f : α → Run β} {fault : Fault}
    (h : (x >>= f).run m = (.error fault, m')) :
    x.run m = (.error fault, m') ∨
      ∃ a m₁, x.run m = (.ok a, m₁) ∧ (f a).run m₁ = (.error fault, m') := by
  rw [run_bind] at h
  cases hrun : x.run m with
  | mk r m₁ =>
      rw [hrun] at h
      cases r with
      | ok a => exact .inr ⟨a, m₁, rfl, h⟩
      | error other =>
          cases h
          exact .inl rfl

theorem eq_of_run_lift_eq_ok {m m' : Machine} {r : Except Fault α} {a : α}
    (h : (lift r).run m = (.ok a, m')) : r = .ok a ∧ m' = m := by
  cases r with
  | ok b =>
      cases h
      exact ⟨rfl, rfl⟩
  | error fault => cases h

theorem run_map (f : α → β) (x : Run α) :
    (f <$> x).run m = ((x.run m).1.map f, (x.run m).2) := by
  rw [map_eq_pure_bind, run_bind]
  cases h : x.run m with
  | mk r m' => cases r <;> rfl

theorem run_tryCatch (x : Run α) (handler : Fault → Run α) :
    (tryCatch x handler).run m =
      match x.run m with
      | (.ok a, m') => (.ok a, m')
      | (.error fault, m') => (handler fault).run m' := by
  simp only [tryCatch, tryCatchThe, MonadExceptOf.tryCatch, ExceptT.tryCatch, ExceptT.mk,
    ExceptT.run, bind, StateT.bind]
  cases x m with
  | mk r m' => cases r <;> rfl

theorem run_marking (f : Nat → Except Fault (α × Nat)) :
    (marking f).run m =
      match f m.mark with
      | .ok r => (.ok r.1, { m with mark := r.2 })
      | .error fault => (.error fault, m.noteFault none fault) := by
  show (lift (f m.mark) >>= fun r => do modify fun m => { m with mark := r.2 }; return r.1).run m = _
  rw [run_bind]
  cases f m.mark with
  | ok r => rfl
  | error fault => rfl

end Run

end ArrayExpr
