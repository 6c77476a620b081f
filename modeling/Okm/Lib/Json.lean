import Mathlib.Algebra.Group.Int.Defs
import Mathlib.Algebra.Group.Nat.Defs
import Mathlib.Data.Int.Basic
import Mathlib.Data.List.Basic

/-!
# Values written to JSON and read back

A document as the values it carries, and the readers a typed format is put together from:
numbers of a width, texts, lists, optional values, members of an object by name. `Returns`
says when what a writer made is read back, and that it is not read at all otherwise; the
rules carry it through lists and optional values.
-/

namespace Okm.Lib

inductive Json where
  | null
  | bool (b : Bool)
  | int (n : Int)
  /-- A number with a fraction, by the bits of its double. -/
  | float (bits : UInt64)
  | str (s : String)
  | arr (items : List Json)
  | obj (members : List (String × Json))

namespace Json

variable {α : Type}

/-! ## Readers -/

def asBool : Json → Option Bool
  | bool b => some b
  | _ => none

def asStr : Json → Option String
  | str s => some s
  | _ => none

def asFloat : Json → Option UInt64
  | float bits => some bits
  | _ => none

def asNat : Json → Option Nat
  | int n => if 0 ≤ n then some n.toNat else none
  | _ => none

/-- An unsigned number of a width. -/
def asUnsigned (width : Nat) : Json → Option Nat
  | int n => if 0 ≤ n ∧ n < 2 ^ width then some n.toNat else none
  | _ => none

/-- A signed number of 64 bits. -/
def asInt64 : Json → Option Int64
  | int n => if -2 ^ 63 ≤ n ∧ n < 2 ^ 63 then some (Int64.ofInt n) else none
  | _ => none

def asList (read : Json → Option α) : Json → Option (List α)
  | arr items => items.mapM read
  | _ => none

/-- `null`, or a value. -/
def asOption (read : Json → Option α) : Json → Option (Option α)
  | null => some none
  | j => (read j).map some

/-- The member of an object under one of the names, if there is one; it must not be there
twice. -/
def member (names : List String) : Json → Option (Option Json)
  | obj members => match members.filter fun m => names.contains m.1 with
    | [] => some none
    | [m] => some (some m.2)
    | _ => none
  | _ => none

/-- A member that must be there. -/
def required (names : List String) (read : Json → Option α) (j : Json) : Option α := do
  let found ← j.member names
  let value ← found
  read value

/-- A member that stands for a value when it is not there. -/
def defaulted (names : List String) (read : Json → Option α) (missing : α) (j : Json) :
    Option α := do
  let found ← j.member names
  match found with
  | none => some missing
  | some value => read value

theorem required_of_member {names : List String} {j value : Json}
    (h : j.member names = some (some value)) (read : Json → Option α) :
    j.required names read = read value := by
  rw [required, h]
  rfl

theorem defaulted_of_member {names : List String} {j value : Json}
    (h : j.member names = some (some value)) (read : Json → Option α) (missing : α) :
    j.defaulted names read missing = read value := by
  rw [defaulted, h]
  rfl

/-! ## Writers -/

def ofOption (write : α → Json) : Option α → Json
  | none => null
  | some a => write a

def ofList (write : α → Json) (as : List α) : Json := arr (as.map write)

/-! ## What comes back -/

/-- A written value is read back if it is as described, and is not read otherwise. -/
def Returns (write : α → Json) (read : Json → Option α) (ok : α → Prop) : Prop :=
  ∀ a, (ok a → read (write a) = some a) ∧ (¬ ok a → read (write a) = none)

/-- Every written value is read back. -/
abbrev Always (write : α → Json) (read : Json → Option α) : Prop :=
  ∀ a, read (write a) = some a

theorem Always.returns {write : α → Json} {read : Json → Option α} (h : Always write read) :
    Returns write read fun _ => True :=
  fun a => ⟨fun _ => h a, fun hnot => absurd trivial hnot⟩

theorem always_nat : Always (fun n : Nat => int n) asNat := by
  intro n
  simp [asNat]

theorem asUnsigned_of_lt {width n : Nat} (h : n < 2 ^ width) :
    asUnsigned width (int n) = some n := by
  have hrange : (0 : Int) ≤ n ∧ (n : Int) < 2 ^ width := ⟨Int.natCast_nonneg n, by exact_mod_cast h⟩
  rw [asUnsigned, if_pos hrange, Int.toNat_natCast]

theorem always_int64 : Always (fun b : Int64 => int b.toInt) asInt64 := by
  intro b
  have hlo := b.le_toInt
  have hhi := b.toInt_lt
  have hrange : -2 ^ 63 ≤ b.toInt ∧ b.toInt < 2 ^ 63 := ⟨by omega, by omega⟩
  rw [asInt64, if_pos hrange, Int64.ofInt_toInt]

/-- **A list** comes back when its every element does. -/
theorem Returns.list {write : α → Json} {read : Json → Option α} {ok : α → Prop}
    (h : Returns write read ok) :
    Returns (ofList write) (asList read) fun as => ∀ a ∈ as, ok a := by
  intro as
  rw [ofList, asList]
  induction as with
  | nil => exact ⟨fun _ => rfl, fun hnot => absurd nofun hnot⟩
  | cons a as ih =>
    rw [List.map_cons, List.mapM_cons]
    simp only [List.forall_mem_cons] at ih ⊢
    by_cases ha : ok a
    · rw [(h a).1 ha]
      by_cases has : ∀ b ∈ as, ok b
      · rw [ih.1 has]
        exact ⟨fun _ => rfl, fun hnot => absurd ⟨ha, has⟩ hnot⟩
      · rw [ih.2 has]
        exact ⟨fun hall => absurd hall.2 has, fun _ => rfl⟩
    · rw [(h a).2 ha]
      exact ⟨fun hall => absurd hall.1 ha, fun _ => rfl⟩

/-- **An optional value** comes back when the value does, if no value is written `null`. -/
theorem Returns.option {write : α → Json} {read : Json → Option α} {ok : α → Prop}
    (h : Returns write read ok) (hnull : ∀ a, write a ≠ null) :
    Returns (ofOption write) (asOption read) fun value => ∀ a ∈ value, ok a := by
  intro value
  cases value with
  | none => exact ⟨fun _ => rfl, fun hnot => absurd nofun hnot⟩
  | some a =>
    have hread : asOption read (write a) = (read (write a)).map some := by
      cases hw : write a with
      | null => exact absurd hw (hnull a)
      | _ => rfl
    show (_ → asOption read (write a) = _) ∧ (_ → asOption read (write a) = _)
    rw [hread]
    constructor
    · intro hok
      rw [(h a).1 (hok a rfl)]
      rfl
    · intro hnot
      have hno : ¬ ok a := by
        intro hok
        refine hnot ?_
        rintro b hb
        rw [← Option.some.inj hb]
        exact hok
      rw [(h a).2 hno]
      rfl

theorem Always.list {write : α → Json} {read : Json → Option α} (h : Always write read) :
    Always (ofList write) (asList read) :=
  fun as => (h.returns.list as).1 fun _ _ => trivial

theorem Always.option {write : α → Json} {read : Json → Option α} (h : Always write read)
    (hnull : ∀ a, write a ≠ null) : Always (ofOption write) (asOption read) :=
  fun value => (h.returns.option hnull value).1 fun _ _ => trivial

end Json

end Okm.Lib
