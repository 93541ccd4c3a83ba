import CModel.Json.Value

/-!
# Values at the end of a way

* `Value.modifyAt_bind`: what is done through a reference, one thing after the other.
* `Placed`: the value at the end of a way becomes another one.
* `Placed.reach_child`: an element that is made and then filled.
-/

namespace CModel
namespace Json

variable {R : Type}

namespace Value

@[simp] theorem comments_withComments (c : Comments) (v : Value R) :
    (v.withComments c).comments = c := by
  cases v <;> rfl

@[simp] theorem withComments_withComments (c c' : Comments) (v : Value R) :
    (v.withComments c').withComments c = v.withComments c := by
  cases v <;> rfl

theorem withComments_comments (v : Value R) : v.withComments v.comments = v := by
  cases v <;> rfl

/-- A later assignment replaces an earlier one. -/
@[simp] theorem assign_assign (v w old : Value R) : w.assign (v.assign old) = w.assign old := by
  simp only [assign, comments_withComments]

/-- What is assigned to a value without comments. -/
theorem assign_of_comments {v old : Value R} (hv : v.comments = {}) (hold : old.comments = {}) :
    v.assign old = v := by
  rw [assign, hold, ← hv, withComments_comments]

theorem type_assign (v old : Value R) : (v.assign old).type = v.type := by
  cases v <;> rfl

theorem isArray_assign (v old : Value R) : (v.assign old).isArray = v.isArray := by
  rw [isArray, type_assign, isArray]

theorem isObject_assign (v old : Value R) : (v.assign old).isObject = v.isObject := by
  rw [isObject, type_assign, isObject]

theorem modifyChild_bind (key : CZString) (f g : Value R → Option (Value R)) (v : Value R) :
    (v.modifyChild key g).bind (modifyChild key f) = v.modifyChild key fun w => (g w).bind f := by
  cases v with
  | scalar c s => rfl
  | map c k m =>
    rw [modifyChild, modifyChild, ← Assoc.modify_modify]
    cases Assoc.modify key g m <;> rfl

/-- Two things that are done through one reference. -/
theorem modifyAt_bind (path : List CZString) (f g : Value R → Option (Value R)) (root : Value R) :
    (root.modifyAt path g).bind (modifyAt path f) =
      root.modifyAt path fun v => (g v).bind f := by
  induction path generalizing f g with
  | nil => rfl
  | cons key path ih =>
    have hchild : (fun v => (modifyChild key g v).bind (modifyChild key f)) =
        modifyChild key fun v => (g v).bind f := funext (modifyChild_bind key f g)
    rw [modifyAt, modifyAt, ← hchild, ← ih]
    rfl

theorem isSome_modifyChild {key : CZString} {f g : Value R → Option (Value R)}
    (hfg : ∀ v, (f v).isSome → (g v).isSome) {v : Value R} (h : (v.modifyChild key f).isSome) :
    (v.modifyChild key g).isSome := by
  cases v with
  | scalar c s => exact absurd h (by simp [modifyChild])
  | map c k m =>
    rw [modifyChild, Option.isSome_map] at h ⊢
    obtain ⟨b, b', hfind, hb'⟩ := Assoc.isSome_modify_iff.mp h
    obtain ⟨b'', hb''⟩ := Option.isSome_iff_exists.mp (hfg b (by rw [hb']; rfl))
    exact Assoc.isSome_modify_iff.mpr ⟨b, b'', hfind, hb''⟩

/-- Whether there is a result depends on the way, and on what is done at the end of it. -/
theorem isSome_modifyAt {path : List CZString} {f g : Value R → Option (Value R)}
    (hfg : ∀ v, (f v).isSome → (g v).isSome) {root : Value R} (h : (root.modifyAt path f).isSome) :
    (root.modifyAt path g).isSome := by
  induction path generalizing f g with
  | nil => exact hfg root h
  | cons key path ih => exact ih (fun v hv => isSome_modifyChild hfg hv) h

end Value

/-! ## Placed values -/

/-- In `root'` the value at the end of `path` is `v`, with the comments from before. -/
def Placed (path : List CZString) (v root root' : Value R) : Prop :=
  root.modifyAt path (fun old => some (v.assign old)) = some root'

namespace Placed

variable {path : List CZString} {v w root root' root'' : Value R}

/-- Where one value can be placed, every other one can. -/
theorem exists_of (h : Placed path v root root') (w : Value R) :
    ∃ root'', Placed path w root root'' :=
  Option.isSome_iff_exists.mp (Value.isSome_modifyAt (fun _ _ => rfl) (by rw [h]; rfl))

/-- What is done to a value that was placed. -/
theorem modifyAt_eq (h : Placed path v root root') (f : Value R → Option (Value R)) :
    root'.modifyAt path f = root.modifyAt path fun old => f (v.assign old) := by
  have hbind := Value.modifyAt_bind path f (fun old => some (v.assign old)) root
  rw [h] at hbind
  exact hbind

/-- A second value is placed where the first one is. -/
theorem replace_iff (h : Placed path v root root') :
    Placed path w root' root'' ↔ Placed path w root root'' := by
  rw [Placed, Placed, h.modifyAt_eq]
  simp only [Value.assign_assign]

/-- A value that is placed is changed. -/
theorem modify (h : Placed path v root root') {f : Value R → Option (Value R)}
    (hf : ∀ old, f (v.assign old) = some (w.assign old)) (hw : Placed path w root root'') :
    root'.modifyAt path f = some root'' := by
  rw [h.modifyAt_eq]
  simp only [hf]
  exact hw

/-- An element that `operator[]` makes, and that is then filled. -/
theorem reach_child {k : MapType} {m : List (CZString × Value R)} {key : CZString}
    (h : Placed path (.map {} k m) root root') (hk : Value.mapTypeOf key = k)
    (hm : ∀ e ∈ m, e.2.comments = {}) :
    ∃ root₁, root'.modifyAt path (Value.reach key) = some root₁ ∧
      ∀ v, v.comments = {} → ∃ root₂, Placed (key :: path) v root₁ root₂ ∧
        Placed path (.map {} k (Assoc.put key v m)) root root₂ := by
  subst hk
  have hreach : ∀ old : Value R,
      ((Value.map {} (Value.mapTypeOf key) m).assign old).reach key =
        some ((Value.map {} (Value.mapTypeOf key) (Assoc.insert key .null m)).assign old) := by
    intro old
    simp only [Value.assign, Value.withComments, Value.reach, Value.asMap, if_true,
      Option.map_some]
  obtain ⟨root₁, hroot₁⟩ := h.exists_of (.map {} (Value.mapTypeOf key) (Assoc.insert key .null m))
  refine ⟨root₁, h.modify hreach hroot₁, ?_⟩
  intro v hv
  obtain ⟨root₂, hroot₂⟩ := h.exists_of (.map {} (Value.mapTypeOf key) (Assoc.put key v m))
  refine ⟨root₂, ?_, hroot₂⟩
  refine hroot₁.modify (f := Value.modifyChild key fun old => some (v.assign old)) ?_ hroot₂
  intro old
  have hput : Assoc.modify key (fun old => some (v.assign old)) (Assoc.insert key .null m) =
      some (Assoc.put key v m) :=
    Assoc.modify_insert (congrArg some (Value.assign_of_comments hv rfl)) fun e he =>
      congrArg some (Value.assign_of_comments hv (hm e he))
  simp only [Value.assign, Value.withComments, Value.modifyChild] at hput ⊢
  rw [hput]
  rfl

end Placed

end Json
end CModel
