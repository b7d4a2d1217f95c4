import VirtualPeople.Error
import Mathlib.Data.List.Forall2

/-!
# Outcomes

When a step that may fail succeeds, and when it fails with no internal error.
-/

namespace VirtualPeople

variable {α β : Type}

@[simp]
theorem bind_eq_ok {x : Except Error α} {f : α → Except Error β} {v : β} :
    (x >>= f) = .ok v ↔ ∃ u, x = .ok u ∧ f u = .ok v := by
  rcases x with err | u
  · simp [bind, Except.bind]
  · simp [bind, Except.bind]

@[simp]
theorem pure_eq_ok {u v : α} : (pure u : Except Error α) = .ok v ↔ u = v := by
  simp [pure, Except.pure]

/-- A run goes on from the state that its first step leaves. -/
theorem run_bind_eq_ok {ε σ : Type} {x : EStateM ε σ α} {f : α → EStateM ε σ β} {v : β}
    {s t : σ} : (x >>= f) s = .ok v t ↔ ∃ u mid, x s = .ok u mid ∧ f u mid = .ok v t := by
  simp only [bind, EStateM.bind]
  rcases x s with ⟨u, mid⟩ | ⟨err, mid⟩
  · simp only [EStateM.Result.ok.injEq]
    exact ⟨fun h => ⟨u, mid, ⟨rfl, rfl⟩, h⟩, fun ⟨_, _, ⟨hu, hmid⟩, h⟩ => hu ▸ hmid ▸ h⟩
  · simp

theorem run_pure_eq_ok {ε σ : Type} {u v : α} {s t : σ} :
    (pure u : EStateM ε σ α) s = .ok v t ↔ u = v ∧ s = t := by
  simp [pure, EStateM.pure]

theorem map_eq_ok {f : α → β} {x : Except Error α} {v : β} :
    f <$> x = .ok v ↔ ∃ u, x = .ok u ∧ f u = v := by
  rcases x with err | u
  · exact iff_of_false nofun nofun
  · simp [Functor.map, Except.map]

@[simp]
theorem invalidModel_ne_ok {fault : ModelFault} {v : α} : ¬ invalidModel fault = .ok v := by
  simp [invalidModel]

@[simp]
theorem invalidEvent_ne_ok {fault : EventFault} {v : α} : ¬ invalidEvent fault = .ok v := by
  simp [invalidEvent]

theorem exists_error_iff {r : Except Error α} :
    (∃ err, r = .error err) ↔ ¬ ∃ v, r = .ok v := by
  rcases r with err | v
  · simp
  · simp

theorem forall₂_of_mapM {f : α → Except Error β} : ∀ {xs : List α} {ys : List β},
    xs.mapM f = .ok ys → List.Forall₂ (fun x y => f x = .ok y) xs ys
  | [], ys, h => by
    cases h
    exact .nil
  | x :: xs, ys, h => by
    simp only [List.mapM_cons, bind_eq_ok, pure_eq_ok] at h
    obtain ⟨y, hy, others, hothers, rfl⟩ := h
    exact .cons hy (forall₂_of_mapM hothers)

theorem mapM_of_forall₂ {f : α → Except Error β} : ∀ {xs : List α} {ys : List β},
    List.Forall₂ (fun x y => f x = .ok y) xs ys → xs.mapM f = .ok ys
  | _, _, .nil => rfl
  | _, _, .cons h hrest => by
    simp only [List.mapM_cons, h, mapM_of_forall₂ hrest]
    rfl

theorem mapM_eq_ok {f : α → Except Error β} {xs : List α} {ys : List β} :
    xs.mapM f = .ok ys ↔ List.Forall₂ (fun x y => f x = .ok y) xs ys :=
  ⟨forall₂_of_mapM, mapM_of_forall₂⟩

theorem mem_of_mapM {f : α → Except Error β} : ∀ {xs : List α} {ys : List β},
    xs.mapM f = .ok ys → ∀ y, y ∈ ys ↔ ∃ x ∈ xs, f x = .ok y
  | [], ys, h, y => by
    cases h
    simp
  | x :: xs, ys, h, y => by
    simp only [List.mapM_cons, bind_eq_ok, pure_eq_ok] at h
    obtain ⟨z, hz, others, hothers, rfl⟩ := h
    rw [List.mem_cons, mem_of_mapM hothers, List.exists_mem_cons_iff, hz]
    exact or_congr_left ⟨fun h => by rw [h], fun h => (Except.ok.inj h).symm⟩

theorem exists_mapM_iff {f : α → Except Error β} : ∀ {xs : List α},
    (∃ ys, xs.mapM f = .ok ys) ↔ ∀ x ∈ xs, ∃ y, f x = .ok y
  | [] => by simp
  | x :: xs => by
    rw [List.forall_mem_cons, ← exists_mapM_iff]
    simp only [List.mapM_cons, bind_eq_ok, pure_eq_ok]
    constructor
    · rintro ⟨-, y, hy, ys, hys, rfl⟩
      exact ⟨⟨y, hy⟩, ys, hys⟩
    · rintro ⟨⟨y, hy⟩, ys, hys⟩
      exact ⟨y :: ys, y, hy, ys, hys, rfl⟩

theorem mapM_eq_some {f : α → Option β} : ∀ {xs : List α} {ys : List β},
    xs.mapM f = some ys ↔ List.Forall₂ (fun x y => f x = some y) xs ys
  | [], ys => by
    rw [List.forall₂_nil_left_iff, List.mapM_nil]
    exact ⟨fun h => (Option.some.inj h).symm, fun h => congrArg some h.symm⟩
  | x :: xs, ys => by
    rw [List.forall₂_cons_left_iff]
    simp only [List.mapM_cons, Option.bind_eq_bind, Option.bind_eq_some_iff, Option.pure_def,
      Option.some.injEq, mapM_eq_some]
    constructor
    · rintro ⟨y, hy, others, hothers, rfl⟩
      exact ⟨y, others, hy, hothers, rfl⟩
    · rintro ⟨y, others, hy, hothers, rfl⟩
      exact ⟨y, hy, others, hothers, rfl⟩

theorem mapM_eq_none {f : α → Option β} : ∀ {xs : List α},
    xs.mapM f = none ↔ ∃ x ∈ xs, f x = none
  | [] => by simp
  | x :: xs => by
    rw [List.exists_mem_cons_iff, ← mapM_eq_none, List.mapM_cons]
    rcases f x with _ | y
    · simp
    · rcases xs.mapM f with _ | ys
      · simp
      · simp

/-- Fails, if it does, with another error than an internal one. -/
def NeverInternal (x : Except Error α) : Prop := ∀ fault, x ≠ .error (.internal fault)

namespace NeverInternal

theorem ok (v : α) : NeverInternal (.ok v) := by
  intro fault h
  cases h

theorem invalidModel (fault : ModelFault) :
    NeverInternal (invalidModel fault : Except Error α) := by
  intro fault h
  cases h

theorem invalidEvent (fault : EventFault) :
    NeverInternal (invalidEvent fault : Except Error α) := by
  intro fault h
  cases h

theorem bind {x : Except Error α} {f : α → Except Error β} (hx : NeverInternal x)
    (hf : ∀ v, x = .ok v → NeverInternal (f v)) : NeverInternal (x >>= f) := by
  rcases x with err | v
  · intro fault h
    cases h
    exact hx fault rfl
  · exact hf v rfl

theorem map {x : Except Error α} {f : α → β} (hx : NeverInternal x) : NeverInternal (f <$> x) := by
  rcases x with err | v
  · intro fault h
    cases h
    exact hx fault rfl
  · exact .ok (f v)

end NeverInternal

end VirtualPeople
