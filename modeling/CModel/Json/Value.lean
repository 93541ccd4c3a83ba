import CModel.Foundation.Assoc
import CModel.Foundation.CStr

/-!
# `Json::Value`

`value.h` and `json_value.cpp`, in the build without `JSON_VALUE_USE_INTERNAL_MAP`, in which arrays
and objects are both a `std::map<CZString, Value>`.  Where an assertion fails, or an exception is
thrown, there is no result.

* `CZString`: the key of an array or of an object.
* `Value`: the comments, and what `value_` holds.
* `Value.reach`, `Value.modifyChild`, `Value.modifyAt`: a `Value&` is told by the way to it from the
  root; `operator[]` makes the element that it refers to.
* `Value.size`, `Value.clear`, `Value.resize`, `Value.append`, `Value.removeMember`.
* `Value.less`, `Value.equal`: `operator<` and `operator==`.

`R` is `double`.
-/

namespace CModel
namespace Json

/-! ## Keys -/

/-- `Value::CZString`: `index_` where there is no `cstr_`. -/
inductive CZString where
  | index (i : ℤ)
  | name (s : CStr)
  deriving DecidableEq, Repr

namespace CZString

/-- `CZString(int index)`, of an `unsigned` index. -/
def ofIndex (index : ℕ) : CZString := .index (int32 index)

/-- `CZString::index()`; there is none where the key is a name. -/
def indexOf : CZString → Option ℤ
  | index i => some i
  | name _ => none

/-- `CZString::operator<`; the keys of one map are all of one kind. -/
instance : Ord CZString where
  compare
    | .index i, .index j => compare i j
    | .index _, .name _ => .lt
    | .name _, .index _ => .gt
    | .name s, .name t => compare s t

@[simp] theorem compare_index (i j : ℤ) : compare (index i) (index j) = compare i j := rfl

@[simp] theorem compare_name (s t : CStr) : compare (name s) (name t) = compare s t := rfl

instance : Std.TransOrd CZString where
  eq_swap {a b} := by
    cases a with
    | index i =>
      cases b with
      | index j => exact @Std.OrientedCmp.eq_swap ℤ compare _ i j
      | name t => rfl
    | name s =>
      cases b with
      | index j => rfl
      | name t => exact @Std.OrientedCmp.eq_swap CStr compare _ s t
  isLE_trans {a b c} h₁ h₂ := by
    cases a with
    | index i =>
      cases c with
      | name u => rfl
      | index k =>
        cases b with
        | name t => exact absurd h₂ (by simp [compare])
        | index j =>
          exact @Std.TransCmp.isLE_trans ℤ compare _ i j k h₁ h₂
    | name s =>
      cases b with
      | index j => exact absurd h₁ (by simp [compare])
      | name t =>
        cases c with
        | index k => exact absurd h₂ (by simp [compare])
        | name u =>
          exact @Std.TransCmp.isLE_trans CStr compare _ s t u h₁ h₂

instance : Std.LawfulEqOrd CZString where
  compare_self {a} := by
    cases a with
    | index i => exact @Std.ReflCmp.compare_self ℤ compare _ i
    | name s => exact @Std.ReflCmp.compare_self CStr compare _ s
  eq_of_compare {a b} h := by
    cases a with
    | index i =>
      cases b with
      | index j =>
        exact congrArg index (@Std.LawfulEqCmp.eq_of_compare ℤ compare _ i j h)
      | name t => exact absurd h (by simp [compare])
    | name s =>
      cases b with
      | index j => exact absurd h (by simp [compare])
      | name t =>
        exact congrArg name (@Std.LawfulEqCmp.eq_of_compare CStr compare _ s t h)

end CZString

/-! ## Values -/

/-- `ValueType` -/
inductive ValueType where
  | nullValue
  | intValue
  | uintValue
  | realValue
  | stringValue
  | booleanValue
  | arrayValue
  | objectValue
  deriving DecidableEq, Repr

/-- The number of an enumerator. -/
def ValueType.toInt : ValueType → ℤ
  | nullValue => 0
  | intValue => 1
  | uintValue => 2
  | realValue => 3
  | stringValue => 4
  | booleanValue => 5
  | arrayValue => 6
  | objectValue => 7

/-- `CommentPlacement` -/
inductive CommentPlacement where
  | commentBefore
  | commentAfterOnSameLine
  | commentAfter
  deriving DecidableEq, Repr

/-- `comments_`, with the text of each placement that has one. -/
structure Comments where
  before : Option CStr := none
  afterOnSameLine : Option CStr := none
  after : Option CStr := none
  deriving DecidableEq, Repr

namespace Comments

/-- `comments_[placement].comment_` -/
def get (c : Comments) : CommentPlacement → Option CStr
  | .commentBefore => c.before
  | .commentAfterOnSameLine => c.afterOnSameLine
  | .commentAfter => c.after

/-- An assignment to `comments_[placement].comment_`. -/
def put (c : Comments) (text : CStr) : CommentPlacement → Comments
  | .commentBefore => { c with before := some text }
  | .commentAfterOnSameLine => { c with afterOnSameLine := some text }
  | .commentAfter => { c with after := some text }

end Comments

/-- What `value_` holds where it is not a map. -/
inductive Scalar (R : Type) where
  | null
  | int (n : Int32)
  | uint (n : UInt32)
  | real (r : R)
  | string (s : CStr)
  | boolean (b : Bool)
  deriving DecidableEq, Repr

/-- The two types of a value with a `map_`. -/
inductive MapType where
  | array
  | object
  deriving DecidableEq, Repr

/-- `Value`.  The fields are only read together with `type_`, so that the two are one here. -/
inductive Value (R : Type) where
  | scalar (comments : Comments) (value : Scalar R)
  | map (comments : Comments) (type : MapType) (entries : List (CZString × Value R))

variable {R : Type}

/-- `Scalar` by its enumerator. -/
def Scalar.type : Scalar R → ValueType
  | null => .nullValue
  | int _ => .intValue
  | uint _ => .uintValue
  | real _ => .realValue
  | string _ => .stringValue
  | boolean _ => .booleanValue

/-- `MapType` by its enumerator. -/
def MapType.type : MapType → ValueType
  | array => .arrayValue
  | object => .objectValue

namespace Value

/-- `Value::null`, and `Value()`. -/
def null : Value R := .scalar {} .null

/-- `Value(arrayValue)` -/
def array : Value R := .map {} .array []

/-- `Value(objectValue)` -/
def object : Value R := .map {} .object []

/-- `Value(const std::string&)`: what a later copy keeps of it, and what can be read of it. -/
def string (s : Bytes) : Value R := .scalar {} (.string (CStr.of s))

/-- A value is done by induction on what is in its map. -/
@[elab_as_elim, induction_eliminator]
theorem induct {P : Value R → Prop} (scalar : ∀ c s, P (.scalar c s))
    (map : ∀ c k m, (∀ e ∈ m, P e.2) → P (.map c k m)) : ∀ v, P v :=
  @Value.rec R P (fun m => ∀ e ∈ m, P e.2) (fun e => P e.2) scalar
    (fun c k m => map c k m) (fun _ he => absurd he List.not_mem_nil)
    (fun _ _ he hm => List.forall_mem_cons.mpr ⟨he, hm⟩) (fun _ _ hv => hv)

/-- `type()` -/
def type : Value R → ValueType
  | scalar _ s => s.type
  | map _ k _ => k.type

/-- `comments_` -/
def comments : Value R → Comments
  | scalar c _ => c
  | map c _ _ => c

/-- The value with other comments. -/
def withComments (c : Comments) : Value R → Value R
  | scalar _ s => scalar c s
  | map _ k m => map c k m

/-- `operator=`, which leaves the comments where they are. -/
def assign (other v : Value R) : Value R := other.withComments v.comments

/-- `isNull()` -/
def isNull (v : Value R) : Bool := v.type == .nullValue

/-- `isArray()`, also of a null value. -/
def isArray (v : Value R) : Bool := v.type == .nullValue || v.type == .arrayValue

/-- `isObject()`, also of a null value. -/
def isObject (v : Value R) : Bool := v.type == .nullValue || v.type == .objectValue

/-! ### Comments -/

/-- `setComment`, whose text is empty or starts with a slash. -/
def setComment (text : Bytes) (placement : CommentPlacement) (v : Value R) : Option (Value R) :=
  let text := CStr.of text
  if text.bytes.head? = none ∨ text.bytes.head? = some 47 then
    some (v.withComments (v.comments.put text placement))
  else none

/-- `hasComment` -/
def hasComment (placement : CommentPlacement) (v : Value R) : Bool :=
  (v.comments.get placement).isSome

/-- `getComment` -/
def getComment (placement : CommentPlacement) (v : Value R) : Bytes :=
  ((v.comments.get placement).map CStr.bytes).getD []

/-! ### Elements and members -/

/-- `*this = Value(arrayValue)` or `Value(objectValue)` of a null value; a value of another type
than the map's is not one that has the element. -/
def asMap (k : MapType) : Value R → Option (Comments × List (CZString × Value R))
  | scalar c .null => some (c, [])
  | scalar _ _ => none
  | map c k' m => if k' = k then some (c, m) else none

/-- The map that a key is a key of. -/
def mapTypeOf : CZString → MapType
  | .index _ => .array
  | .name _ => .object

/-- What `operator[]` does before it hands out the reference: a null value becomes a map, and a
null element is put where there is none. -/
def reach (key : CZString) (v : Value R) : Option (Value R) :=
  (v.asMap (mapTypeOf key)).map fun (c, m) => map c (mapTypeOf key) (Assoc.insert key null m)

/-- `operator[]` of a `const` value; an element that is not there is `Value::null`. -/
def at? (key : CZString) (v : Value R) : Option (Option (Value R)) :=
  (v.asMap (mapTypeOf key)).map fun (_, m) => Assoc.find key m

/-- `(*this)[key]`, read. -/
def get (key : CZString) (v : Value R) : Option (Value R) := (v.at? key).map (·.getD null)

/-- `isMember` -/
def isMember (key : Bytes) (v : Value R) : Option Bool :=
  (v.at? (.name (CStr.of key))).map Option.isSome

/-- What is done through a reference to an element. -/
def modifyChild (key : CZString) (f : Value R → Option (Value R)) : Value R → Option (Value R)
  | scalar _ _ => none
  | map c k m => (Assoc.modify key f m).map (map c k)

/-- What is done through a reference; the way to it starts with the last key. -/
def modifyAt : List CZString → (Value R → Option (Value R)) → Value R → Option (Value R)
  | [], f, root => f root
  | key :: path, f, root => modifyAt path (modifyChild key f) root

/-! ### Sizes -/

/-- `size()` of an array, the highest index and one. -/
def arraySize (m : List (CZString × Value R)) : ℕ :=
  match m.getLast? with
  | none => 0
  | some e => ((e.1.indexOf.getD 0 + 1) % 2 ^ 32).toNat

/-- `size()` -/
def size : Value R → ℕ
  | scalar _ _ => 0
  | map _ .array m => arraySize m
  | map _ .object m => u32 m.length

/-- `empty()` -/
def empty (v : Value R) : Bool := (v.isNull || v.isArray || v.isObject) && v.size == 0

/-- The loop of `resize` over the indices from `newSize` up to `oldSize`. -/
def eraseFrom (newSize oldSize : ℕ) (m : List (CZString × Value R)) : List (CZString × Value R) :=
  (List.range' newSize (oldSize - newSize)).foldl
    (fun m index => Assoc.erase (CZString.ofIndex index) m) m

/-- `resize`, with the assertion behind its loop. -/
def resize (newSize : ℕ) (v : Value R) : Option (Value R) := do
  let (c, m) ← v.asMap .array
  let oldSize := arraySize m
  if newSize = 0 then some (map c .array [])
  else if oldSize < newSize then (map c .array m).reach (CZString.ofIndex (newSize - 1))
  else
    let m := eraseFrom newSize oldSize m
    if arraySize m = newSize then some (map c .array m) else none

/-- `append`: `(*this)[size()] = value` -/
def append (value v : Value R) : Option (Value R) := do
  let key := CZString.ofIndex v.size
  let v ← v.reach key
  v.modifyChild key fun w => some (value.assign w)

/-- `getMemberNames` -/
def getMemberNames (v : Value R) : Option (List Bytes) :=
  (v.asMap .object).map fun (_, m) => m.filterMap fun e =>
    match e.1 with
    | .index _ => none
    | .name s => some s.bytes

/-- `removeMember`: the value after it, and what it returns. -/
def removeMember (key : Bytes) (v : Value R) : Option (Value R × Value R) :=
  match v with
  | scalar c .null => some (scalar c .null, null)
  | scalar _ _ => none
  | map c k m =>
    if k = .object then
      let key := CZString.name (CStr.of key)
      match Assoc.find key m with
      | none => some (map c k m, null)
      | some old => some (map c k (Assoc.erase key m), old)
    else none

end Value

/-! ## Comparisons -/

/-- `operator<` of two values of one type without a map. -/
def Scalar.less (lt : R → R → Bool) : Scalar R → Scalar R → Bool
  | int m, int n => decide (m < n)
  | uint m, uint n => decide (m < n)
  | real r, real s => lt r s
  | boolean a, boolean b => !a && b
  | string s, string t => compare s t == .lt
  | _, _ => false

namespace Value

mutual

/-- `operator<` -/
def less (lt : R → R → Bool) (v w : Value R) : Bool :=
  if v.type ≠ w.type then decide (v.type.toInt - w.type.toInt < 0)
  else
    match v, w with
    | scalar _ s, scalar _ t => s.less lt t
    | map _ _ m, map _ _ n =>
      let delta := int32 ((m.length : ℤ) - n.length)
      if delta ≠ 0 then decide (delta < 0) else lessEntries lt m n
    | _, _ => false
termination_by sizeOf v + sizeOf w

/-- `operator<` of two maps, which compares the entries one by one, each first the one way and then
the other. -/
def lessEntries (lt : R → R → Bool) : List (CZString × Value R) → List (CZString × Value R) → Bool
  | _, [] => false
  | [], _ :: _ => true
  | (k, v) :: m, (k', w) :: n =>
    if compare k k' = .lt || (compare k' k ≠ .lt && less lt v w) then true
    else if compare k' k = .lt || (compare k k' ≠ .lt && less lt w v) then false
    else lessEntries lt m n
termination_by m n => sizeOf m + sizeOf n

end

/-- `operator==` of two values of one type without a map. -/
def scalarEqual (eq : R → R → Bool) : Scalar R → Scalar R → Bool
  | .null, .null => true
  | .int m, .int n => m == n
  | .uint m, .uint n => m == n
  | .real r, .real s => eq r s
  | .boolean a, .boolean b => a == b
  | .string s, .string t => compare s t == .eq
  | _, _ => false

mutual

/-- `operator==` -/
def equal (eq : R → R → Bool) : Value R → Value R → Bool
  | scalar _ s, scalar _ t => s.type == t.type && scalarEqual eq s t
  | map _ k m, map _ k' n => k == k' && (m.length == n.length && equalEntries eq m n)
  | _, _ => false

/-- `operator==` of two maps of one size. -/
def equalEntries (eq : R → R → Bool) :
    List (CZString × Value R) → List (CZString × Value R) → Bool
  | [], _ => true
  | (k, v) :: m, (k', w) :: n => (compare k k' == .eq && equal eq v w) && equalEntries eq m n
  | _ :: _, [] => true

end

end Value

end Json
end CModel
