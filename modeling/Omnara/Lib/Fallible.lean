/-!
# Code that can fail

`bind` and checks (`ensure`) in `Except`, `List.mapM` over `Except` and `Option` one element at a time,
and a run whose result is known.
-/

namespace Fallible

variable {ε α β : Type} {x : Except ε α} {a : α}

theorem mem_toOption (h : a ∈ x.toOption) : x = .ok a := by
  cases x with
  | error err => cases h
  | ok other => rw [Option.some.inj h]

theorem bind_eq_ok {f : α → Except ε β} {b : β} :
    (x >>= f) = .ok b ↔ ∃ a, x = .ok a ∧ f a = .ok b := by
  cases x with
  | error err => exact ⟨nofun, fun ⟨_, h, _⟩ => nomatch h⟩
  | ok a => exact ⟨fun h => ⟨a, rfl, h⟩, fun ⟨_, ha, h⟩ => Except.ok.inj ha ▸ h⟩

theorem map_eq_ok {f : α → β} {b : β} :
    x.map f = .ok b ↔ ∃ a, x = .ok a ∧ f a = b := by
  cases x with
  | error err => exact ⟨nofun, fun ⟨_, h, _⟩ => nomatch h⟩
  | ok a => exact ⟨fun h => ⟨a, rfl, Except.ok.inj h⟩, fun ⟨_, ha, h⟩ => by cases ha; exact congrArg _ h⟩

theorem map_of_ok {f : α → β} {b : β} (h : x = .ok a) (hb : (x.map f).toOption = some b) :
    f a = b := by
  subst h
  exact Option.some.inj hb

@[simp]
theorem mapError_eq_ok {ε' : Type} {f : ε → ε'} :
    x.mapError f = .ok a ↔ x = .ok a := by
  cases x with
  | error err => exact ⟨nofun, nofun⟩
  | ok b =>
    show Except.ok b = Except.ok a ↔ _
    simp

def ensure (p : Prop) [Decidable p] (err : ε) : Except ε Unit := if p then .ok () else .error err

@[simp]
theorem ensure_eq_ok {p : Prop} [Decidable p] {err : ε} {u : Unit} : ensure p err = .ok u ↔ p := by
  unfold ensure
  split <;> simp [*]

theorem mapM_cons_ok {f : α → Except ε β} {as : List α} {bs : List β} (h : (a :: as).mapM f = .ok bs) :
    ∃ b rest, f a = .ok b ∧ as.mapM f = .ok rest ∧ bs = b :: rest := by
  rw [List.mapM_cons] at h
  cases hb : f a with
  | error err =>
    rw [hb] at h
    cases h
  | ok b =>
    cases hrest : as.mapM f with
    | error err =>
      rw [hb, hrest] at h
      cases h
    | ok rest =>
      rw [hb, hrest] at h
      cases h
      exact ⟨b, rest, rfl, rfl, rfl⟩

theorem mapM_cons_some {f : α → Option β} {as : List α} {bs : List β} (h : (a :: as).mapM f = some bs) :
    ∃ b rest, f a = some b ∧ as.mapM f = some rest ∧ bs = b :: rest := by
  rw [List.mapM_cons] at h
  obtain ⟨b, hb, h⟩ := Option.bind_eq_some_iff.mp h
  obtain ⟨rest, hrest, h⟩ := Option.bind_eq_some_iff.mp h
  exact ⟨b, rest, hb, hrest, (Option.some.inj h).symm⟩

theorem map_of_mapM_some {f : α → Option β} : ∀ {as : List α} {bs : List β}, as.mapM f = some bs →
    as.map f = bs.map some
  | [], _, h => by
    cases h
    rfl
  | a :: as, _, h => by
    obtain ⟨b, rest, hb, hrest, rfl⟩ := mapM_cons_some h
    rw [List.map_cons, List.map_cons, hb, map_of_mapM_some hrest]

theorem mapM_congr {m : Type → Type} [Monad m] [LawfulMonad m] {f g : α → m β} : ∀ {as : List α},
    (∀ a ∈ as, f a = g a) → as.mapM f = as.mapM g
  | [], _ => rfl
  | a :: as, h => by
    obtain ⟨ha, has⟩ := List.forall_mem_cons.mp h
    rw [List.mapM_cons, List.mapM_cons, ha, mapM_congr has]

end Fallible
