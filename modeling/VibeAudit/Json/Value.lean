import VibeAudit.Foundation.SortedMap

/-!
# JSON documents as `serde_json` holds them

`Value` follows `serde_json::Value` without the `preserve_order` feature, so an
object is an ordered map. The accessors are the ones the forwarder uses: reads
by key never fail, while an assignment through a key panics on every value that
is neither an object nor null. A panic is `none` here.
-/

namespace VibeAudit.Json

open Foundation

/-- `serde_json::Number`. A finite `f64` is held as the shortest decimal text that denotes
it, which is the text `serde_json` prints. -/
inductive Number where
  | posInt (n : UInt64)
  | negInt (n : Int64)
  | float (text : String)
  deriving DecidableEq, Repr

namespace Number

/-- Rust's `==`: the two zeros of `f64` are equal, numbers of different kinds are not. -/
def eqv : Number → Number → Bool
  | .posInt a, .posInt b => a == b
  | .negInt a, .negInt b => a == b
  | .float a, .float b => a == b || ([a, b].all fun t => t == "0.0" || t == "-0.0")
  | _, _ => false

def asI64 : Number → Option Int64
  | .posInt n => if n ≤ Int64.maxValue.toUInt64 then some n.toInt64 else none
  | .negInt n => some n
  | .float _ => none

def text : Number → String
  | .posInt n => toString n
  | .negInt n => toString n
  | .float t => t

theorem eqv_comm (a b : Number) : a.eqv b = b.eqv a := by
  cases a <;> cases b <;> simp [eqv, Bool.beq_comm, Bool.and_comm]

end Number

/-- `serde_json::Value`. -/
inductive Value where
  | null
  | bool (b : Bool)
  | number (n : Number)
  | string (s : String)
  | array (xs : List Value)
  | object (m : List (String × Value))
  deriving Repr

/-- `serde_json::Map<String, Value>`. -/
abbrev Map := SortedMap String Value

namespace Value

def isNull : Value → Bool
  | .null => true
  | _ => false

def isObject : Value → Bool
  | .object _ => true
  | _ => false

def isArray : Value → Bool
  | .array _ => true
  | _ => false

def asStr : Value → Option String
  | .string s => some s
  | _ => none

def asBool : Value → Option Bool
  | .bool b => some b
  | _ => none

def asI64 : Value → Option Int64
  | .number n => n.asI64
  | _ => none

/-- `value.get(key)`. -/
def get? : Value → String → Option Value
  | .object m, key => SortedMap.get? m key
  | _, _ => none

/-- The read `value[key]`: null where there is no such member. -/
def index (v : Value) (key : String) : Value := (v.get? key).getD .null

/-- The assignment `value[key] = x`: null becomes an object first, and every other value
that is not an object panics. -/
def setIndex (v : Value) (key : String) (x : Value) : Option Value :=
  match v with
  | .object m => some (.object (SortedMap.insert m key x))
  | .null => some (.object [(key, x)])
  | _ => none

/-- The values an assignment through a key accepts. -/
def isAssignable : Value → Bool
  | .object _ | .null => true
  | _ => false

/-- `json!({ ... })`: members are inserted in the order they are written. -/
def obj (members : List (String × Value)) : Value := .object (SortedMap.ofList members)

mutual

/-- Rust's `==` on documents. -/
def eqv : Value → Value → Bool
  | .null, .null => true
  | .bool a, .bool b => a == b
  | .number a, .number b => a.eqv b
  | .string a, .string b => a == b
  | .array xs, .array ys => eqvElements xs ys
  | .object m, .object n => eqvMembers m n
  | _, _ => false

def eqvElements : List Value → List Value → Bool
  | [], [] => true
  | x :: xs, y :: ys => x.eqv y && eqvElements xs ys
  | _, _ => false

def eqvMembers : List (String × Value) → List (String × Value) → Bool
  | [], [] => true
  | (k, x) :: m, (l, y) :: n => k == l && x.eqv y && eqvMembers m n
  | _, _ => false

end

/-- One character inside a JSON string literal, as the compact formatter writes it. -/
def escapeChar (c : Char) : List Char :=
  match c with
  | '"' => ['\\', '"']
  | '\\' => ['\\', '\\']
  | '\n' => ['\\', 'n']
  | '\r' => ['\\', 'r']
  | '\t' => ['\\', 't']
  | c =>
    if c = Char.ofNat 8 then ['\\', 'b']
    else if c = Char.ofNat 12 then ['\\', 'f']
    else if c.toNat < 32 then
      ['\\', 'u', '0', '0', Nat.digitChar (c.toNat / 16), Nat.digitChar (c.toNat % 16)]
    else [c]

def quote (s : String) : String := "\"" ++ String.ofList (s.toList.flatMap escapeChar) ++ "\""

mutual

/-- `value.to_string()`, the compact rendering. -/
def render : Value → String
  | .null => "null"
  | .bool b => if b then "true" else "false"
  | .number n => n.text
  | .string s => quote s
  | .array xs => "[" ++ renderElements xs ++ "]"
  | .object m => "\x7b" ++ renderMembers m ++ "\x7d"

def renderElements : List Value → String
  | [] => ""
  | [x] => x.render
  | x :: xs => x.render ++ "," ++ renderElements xs

def renderMembers : List (String × Value) → String
  | [] => ""
  | [(k, x)] => quote k ++ ":" ++ x.render
  | (k, x) :: m => quote k ++ ":" ++ x.render ++ "," ++ renderMembers m

end

mutual

/-- Every number and every string of a document, names of members among them, has a property. -/
def every (number : Number → Bool) (text : String → Bool) : Value → Bool
  | .null | .bool _ => true
  | .number n => number n
  | .string s => text s
  | .array xs => everyElement number text xs
  | .object m => everyMember number text m

def everyElement (number : Number → Bool) (text : String → Bool) : List Value → Bool
  | [] => true
  | x :: xs => x.every number text && everyElement number text xs

def everyMember (number : Number → Bool) (text : String → Bool) : List (String × Value) → Bool
  | [] => true
  | (k, x) :: m => text k && x.every number text && everyMember number text m

end

example : (obj [("b", .array [.null, .bool true]), ("a", .string "x\ny")]).render =
    "\x7b\"a\":\"x\\ny\",\"b\":[null,true]\x7d" := by decide

/-! ## Reading back what was assigned -/

@[simp] theorem get?_object (m : Map) (key : String) :
    (Value.object m).get? key = SortedMap.get? m key := rfl

theorem index_eq_of_get? {v w : Value} {key : String} (h : v.get? key = some w) :
    v.index key = w := by
  simp [index, h]

theorem get?_setIndex {v w x : Value} {key : String} (h : v.setIndex key x = some w)
    (j : String) : w.get? j = if j = key then some x else v.get? j := by
  cases v with
  | object m =>
    obtain rfl := Option.some.inj h
    exact SortedMap.get?_insert m key j x
  | null =>
    obtain rfl := Option.some.inj h
    simp [SortedMap.get?_cons, get?]
  | bool | number | string | array => cases h

theorem index_setIndex {v w x : Value} {key : String} (h : v.setIndex key x = some w)
    (j : String) : w.index j = if j = key then x else v.index j := by
  unfold index
  rw [get?_setIndex h]
  split_ifs <;> rfl

theorem isObject_of_setIndex {v w x : Value} {key : String} (h : v.setIndex key x = some w) :
    w.isObject = true := by
  cases v with
  | object | null => obtain rfl := Option.some.inj h; rfl
  | bool | number | string | array => cases h

theorem isAssignable_of_isObject {v : Value} (h : v.isObject = true) :
    v.isAssignable = true := by
  cases v <;> simp_all [isObject, isAssignable]

theorem get?_obj (members : List (String × Value)) (key : String) :
    (obj members).get? key = SortedMap.get? members.reverse key :=
  SortedMap.get?_ofList members key

/-- A member is read under its name, if the names are different. -/
theorem index_obj {members : List (String × Value)} (h : (members.map Prod.fst).Nodup)
    {p : String × Value} (hp : p ∈ members) : (obj members).index p.1 = p.2 :=
  index_eq_of_get? (SortedMap.get?_of_mem (SortedMap.sorted_ofList members)
    ((SortedMap.mem_ofList h).mpr hp))

section

variable {number : Number → Bool} {text : String → Bool}

theorem everyElement_eq_true {xs : List Value} :
    everyElement number text xs = true ↔ ∀ x ∈ xs, x.every number text = true := by
  induction xs with
  | nil => simp [everyElement]
  | cons x xs ih => simp [everyElement, ih]

theorem everyMember_eq_true {m : List (String × Value)} : everyMember number text m = true ↔
    ∀ p ∈ m, text p.1 = true ∧ p.2.every number text = true := by
  induction m with
  | nil => simp [everyMember]
  | cons p m ih =>
    obtain ⟨k, x⟩ := p
    simp [everyMember, ih]

theorem every_obj {members : List (String × Value)} (h : (members.map Prod.fst).Nodup) :
    (obj members).every number text = true ↔
      ∀ p ∈ members, text p.1 = true ∧ p.2.every number text = true := by
  rw [obj, every, everyMember_eq_true]
  simp only [SortedMap.mem_ofList h]

end

/-! ## Equality -/

mutual

theorem eqv_comm : ∀ v w : Value, v.eqv w = w.eqv v
  | .array xs, .array ys => eqvElements_comm xs ys
  | .object m, .object n => eqvMembers_comm m n
  | .null, w => by cases w <;> rfl
  | .bool a, w => by cases w <;> simp [eqv, Bool.beq_comm]
  | .number a, w => by cases w <;> simp [eqv, Number.eqv_comm a]
  | .string a, w => by cases w <;> simp [eqv, Bool.beq_comm]
  | .array _, .null | .array _, .bool _ | .array _, .number _ | .array _, .string _
  | .array _, .object _ | .object _, .null | .object _, .bool _ | .object _, .number _
  | .object _, .string _ | .object _, .array _ => rfl

theorem eqvElements_comm : ∀ xs ys : List Value, eqvElements xs ys = eqvElements ys xs
  | [], [] | [], _ :: _ | _ :: _, [] => rfl
  | x :: xs, y :: ys => by
    rw [eqvElements, eqvElements, eqv_comm x y, eqvElements_comm xs ys]

theorem eqvMembers_comm : ∀ m n : List (String × Value), eqvMembers m n = eqvMembers n m
  | [], [] | [], _ :: _ | _ :: _, [] => rfl
  | (k, x) :: m, (l, y) :: n => by
    rw [eqvMembers, eqvMembers, eqv_comm x y, eqvMembers_comm m n, Bool.beq_comm]

end

/-- Equal objects have equal members, name by name. -/
theorem eqvMembers_iff {m n : List (String × Value)} : eqvMembers m n = true ↔
    List.Forall₂ (fun p q => p.1 = q.1 ∧ p.2.eqv q.2 = true) m n := by
  induction m generalizing n with
  | nil => cases n <;> simp [eqvMembers]
  | cons p m ih =>
    obtain ⟨k, x⟩ := p
    cases n with
    | nil => simp [eqvMembers]
    | cons q n =>
      obtain ⟨l, y⟩ := q
      simp [eqvMembers, ih]

theorem asStr_eq_some {v : Value} {s : String} : v.asStr = some s ↔ v = .string s := by
  cases v <;> simp [asStr]

end Value

end VibeAudit.Json
