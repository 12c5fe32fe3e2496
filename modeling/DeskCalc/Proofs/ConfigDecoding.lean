import DeskCalc.Config.Reading
import DeskCalc.Proofs.FixedPointText
import DeskCalc.Proofs.JsonStrictness
import Mathlib.Tactic.MkIffOfInductiveProp

/-!
# Configurations are decoded by name

An object gives a configuration by the names of its members alone: not by their order, and
whatever members under other names stand between them. A field that is not given has its
default, and a name that is given twice is refused. Written down with its four fields, every
configuration is read back.
-/

namespace DeskCalc

open Digits (areDigits toNat)

namespace Json

/-- The values that members have under a name, in their order. -/
def valuesOf (name : String) (members : List (Option String × Json)) : List Json :=
  members.filterMap fun member => if member.1 = some name then some member.2 else none

/-- A name, as a string or as the one key of an object that holds null. -/
inductive IsName : Json → String → Prop
  | string {name : String} : IsName (.string (some name)) name
  | object {name : String} : IsName (.object [(some name, .null)]) name

/-- A number of digits, written as digits alone and below the bound. -/
inductive IsPrecision : Json → Nat → Prop
  | digits {text : List Char} (h : areDigits text = true) (hlt : toNat text < precisionBound) :
      IsPrecision (.number text) (toNat text)

theorem valuesOf_cons (name : String) (key : Option String) (v : Json)
    (members : List (Option String × Json)) :
    valuesOf name ((key, v) :: members) =
      if key = some name then v :: valuesOf name members else valuesOf name members := by
  by_cases h : key = some name <;> simp [valuesOf, h]

theorem toName?_eq_some_iff (v : Json) (name : String) :
    v.toName? = some name ↔ v.IsName name := by
  constructor
  · intro h
    unfold toName? at h
    split at h
    · subst h
      exact .string
    · subst h
      exact .object
    · cases h
  · intro h
    cases h <;> rfl

/-- A value that names something is read as what it names. -/
theorem readName?_eq_some_iff {α : Type} {ofName? : String → Option α} {name : α → String}
    (hname : ∀ s x, ofName? s = some x ↔ s = name x) (v : Json) (x : α) :
    v.toName?.bind ofName? = some x ↔ v.IsName (name x) := by
  rw [← toName?_eq_some_iff, Option.bind_eq_some_iff]
  simp only [hname, exists_eq_right]

theorem toPrecision?_eq_some_iff (v : Json) (n : Nat) :
    v.toPrecision? = some n ↔ v.IsPrecision n := by
  constructor
  · intro h
    cases v with
    | number text =>
        rw [toPrecision?] at h
        split at h
        · next hdigits =>
            rw [Bool.and_eq_true, decide_eq_true_eq] at hdigits
            obtain rfl := Option.some.inj h
            exact .digits hdigits.1 hdigits.2
        · cases h
    | _ => cases h
  · rintro ⟨h, hlt⟩
    rw [toPrecision?, h, decide_eq_true hlt]
    rfl

end Json

namespace Config

/-- What the values under the name of a field make of it: its default, or the one value that
is given. -/
inductive FieldIs {α : Type} (valid : Json → α → Prop) (default : α) : List Json → α → Prop
  | absent : FieldIs valid default [] default
  | given {v : Json} {x : α} (h : valid v x) : FieldIs valid default [v] x

/-- The configuration that members of an object give. -/
structure GivenBy (members : List (Option String × Json)) (c : Config) : Prop where
  /-- Every key is a text. -/
  named : ∀ member ∈ members, member.1.isSome = true
  backend : FieldIs (fun v b => v.IsName b.name) standard.backend
    (Json.valuesOf "backend" members) c.backend
  precision : FieldIs Json.IsPrecision standard.precision
    (Json.valuesOf "precision" members) c.precision
  maxPrecision : FieldIs Json.IsPrecision standard.maxPrecision
    (Json.valuesOf "max_precision" members) c.maxPrecision
  policy : FieldIs (fun v p => v.IsName p.name) standard.policy
    (Json.valuesOf "domain_error_policy" members) c.policy

/-- The names under which members are not skipped. -/
def fieldNames : List String := ["backend", "precision", "max_precision", "domain_error_policy"]

/-- What one pass over the values of a field leaves in its slot. -/
inductive Fills {α : Type} (read : Json → Option α) : Option α → List Json → Option α → Prop
  | kept {slot : Option α} : Fills read slot [] slot
  | filled {v : Json} {x : α} (h : read v = some x) : Fills read none [v] (some x)

theorem fills_nil_iff {α : Type} {read : Json → Option α} {slot slot' : Option α} :
    Fills read slot [] slot' ↔ slot = slot' := by
  constructor
  · intro h
    cases h
    rfl
  · rintro rfl
    exact .kept

theorem fills_cons_iff {α : Type} {read : Json → Option α} {slot slot' : Option α} {v : Json}
    {vs : List Json} :
    Fills read slot (v :: vs) slot' ↔
      slot = none ∧ ∃ x, read v = some x ∧ Fills read (some x) vs slot' := by
  constructor
  · intro h
    cases h with
    | filled h => exact ⟨rfl, _, h, .kept⟩
  · rintro ⟨rfl, x, hx, h⟩
    cases h
    exact .filled hx

namespace Fields

def readBackend? (v : Json) : Option Backend := v.toName?.bind Backend.ofName?

def readPolicy? (v : Json) : Option FailurePolicy := v.toName?.bind FailurePolicy.ofName?

/-- A value is put into an empty slot only, and only if it can be read. -/
theorem put_eq_some_iff {α : Type} {slot value : Option α} {set : α → Fields} {g : Fields} :
    (if slot.isSome then none else value.map set) = some g ↔
      slot = none ∧ ∃ x, value = some x ∧ set x = g := by
  cases slot <;> simp

/-- Each field is filled from the values under its own name. -/
@[mk_iff]
structure FilledFrom (f : Fields) (members : List (Option String × Json)) (g : Fields) : Prop where
  named : ∀ member ∈ members, member.1.isSome = true
  backend : Fills readBackend? f.backend (Json.valuesOf "backend" members) g.backend
  precision : Fills Json.toPrecision? f.precision (Json.valuesOf "precision" members) g.precision
  maxPrecision : Fills Json.toPrecision? f.maxPrecision
    (Json.valuesOf "max_precision" members) g.maxPrecision
  policy : Fills readPolicy? f.policy (Json.valuesOf "domain_error_policy" members) g.policy

theorem putMember?_other {name : String} (h : name ∉ fieldNames) (f : Fields) (v : Json) :
    f.putMember? (some name, v) = some f := by
  simp only [fieldNames, List.mem_cons, List.not_mem_nil, or_false, not_or] at h
  obtain ⟨hbackend, hprecision, hmax, hpolicy⟩ := h
  rw [putMember?]
  all_goals
    intro hname
    cases hname
    contradiction

/-- One member fills the field that it names, if that is empty, or is skipped. -/
theorem filledFrom_cons_iff (f g : Fields) (member : Option String × Json)
    (members : List (Option String × Json)) :
    FilledFrom f (member :: members) g ↔
      ∃ f', f.putMember? member = some f' ∧ FilledFrom f' members g := by
  obtain ⟨key, v⟩ := member
  cases key with
  | none =>
      have hput : f.putMember? (none, v) = none := rfl
      simp [filledFrom_iff, hput]
  | some name =>
      simp only [filledFrom_iff, List.forall_mem_cons, Option.isSome_some, true_and,
        Json.valuesOf_cons, Option.some.injEq]
      by_cases hbackend : name = "backend"
      · subst hbackend
        have hput : f.putMember? (some "backend", v) =
          if f.backend.isSome then none
          else (readBackend? v).map fun x => { f with backend := some x } := rfl
        simp only [String.reduceEq, ↓reduceIte, fills_cons_iff, hput, put_eq_some_iff]
        grind
      by_cases hprecision : name = "precision"
      · subst hprecision
        have hput : f.putMember? (some "precision", v) =
          if f.precision.isSome then none
          else v.toPrecision?.map fun x => { f with precision := some x } := rfl
        simp only [String.reduceEq, ↓reduceIte, fills_cons_iff, hput, put_eq_some_iff]
        grind
      by_cases hmax : name = "max_precision"
      · subst hmax
        have hput : f.putMember? (some "max_precision", v) =
          if f.maxPrecision.isSome then none
          else v.toPrecision?.map fun x => { f with maxPrecision := some x } := rfl
        simp only [String.reduceEq, ↓reduceIte, fills_cons_iff, hput, put_eq_some_iff]
        grind
      by_cases hpolicy : name = "domain_error_policy"
      · subst hpolicy
        have hput : f.putMember? (some "domain_error_policy", v) =
          if f.policy.isSome then none
          else (readPolicy? v).map fun x => { f with policy := some x } := rfl
        simp only [String.reduceEq, ↓reduceIte, fills_cons_iff, hput, put_eq_some_iff]
        grind
      have hother : name ∉ fieldNames := by simp [fieldNames, hbackend, hprecision, hmax, hpolicy]
      simp [putMember?_other hother, hbackend, hprecision, hmax, hpolicy]

theorem foldlM_putMember?_eq_some_iff (members : List (Option String × Json)) (f g : Fields) :
    members.foldlM putMember? f = some g ↔ FilledFrom f members g := by
  induction members generalizing f with
  | nil =>
      obtain ⟨b, p, m, d⟩ := f
      obtain ⟨b', p', m', d'⟩ := g
      simp [filledFrom_iff, fills_nil_iff, Json.valuesOf]
  | cons member members ih =>
      rw [List.foldlM_cons, Option.bind_eq_bind, Option.bind_eq_some_iff, filledFrom_cons_iff]
      simp only [ih]

end Fields

/-- The value of a field is what its slot holds in the end, or its default. -/
theorem fieldIs_iff {α : Type} {read : Json → Option α} {valid : Json → α → Prop}
    (hread : ∀ v x, read v = some x ↔ valid v x) {default x : α} {vs : List Json} :
    FieldIs valid default vs x ↔ ∃ slot, Fills read none vs slot ∧ slot.getD default = x := by
  constructor
  · intro h
    cases h with
    | absent => exact ⟨none, .kept, rfl⟩
    | given h => exact ⟨some x, .filled ((hread _ _).mpr h), rfl⟩
  · rintro ⟨slot, h, rfl⟩
    cases h with
    | kept => exact .absent
    | filled h => exact .given ((hread _ _).mp h)

theorem readBackend?_eq_some_iff (v : Json) (b : Backend) :
    Fields.readBackend? v = some b ↔ v.IsName b.name := by
  refine Json.readName?_eq_some_iff (fun s b => ⟨fun h => ?_, ?_⟩) v b
  · unfold Backend.ofName? at h
    split at h <;> cases h <;> rfl
  · rintro rfl
    exact b.ofName?_name

theorem readPolicy?_eq_some_iff (v : Json) (p : FailurePolicy) :
    Fields.readPolicy? v = some p ↔ v.IsName p.name := by
  refine Json.readName?_eq_some_iff (fun s p => ⟨fun h => ?_, ?_⟩) v p
  · unfold FailurePolicy.ofName? at h
    split at h <;> cases h <;> rfl
  · rintro rfl
    exact p.ofName?_name

/-- The members of an object are decoded by their names. -/
theorem ofJson?_object_eq_some_iff (members : List (Option String × Json)) (c : Config) :
    ofJson? (.object members) = some c ↔ GivenBy members c := by
  rw [ofJson?, Option.map_eq_some_iff]
  simp only [Fields.ofMembers?, Fields.foldlM_putMember?_eq_some_iff]
  constructor
  · rintro ⟨g, h, rfl⟩
    exact ⟨h.named, (fieldIs_iff readBackend?_eq_some_iff).mpr ⟨_, h.backend, rfl⟩,
      (fieldIs_iff Json.toPrecision?_eq_some_iff).mpr ⟨_, h.precision, rfl⟩,
      (fieldIs_iff Json.toPrecision?_eq_some_iff).mpr ⟨_, h.maxPrecision, rfl⟩,
      (fieldIs_iff readPolicy?_eq_some_iff).mpr ⟨_, h.policy, rfl⟩⟩
  · intro h
    obtain ⟨b, hb, hbackend⟩ := (fieldIs_iff readBackend?_eq_some_iff).mp h.backend
    obtain ⟨p, hp, hprecision⟩ := (fieldIs_iff Json.toPrecision?_eq_some_iff).mp h.precision
    obtain ⟨m, hm, hmax⟩ := (fieldIs_iff Json.toPrecision?_eq_some_iff).mp h.maxPrecision
    obtain ⟨d, hd, hpolicy⟩ := (fieldIs_iff readPolicy?_eq_some_iff).mp h.policy
    refine ⟨⟨b, p, m, d⟩, ⟨h.named, hb, hp, hm, hd⟩, ?_⟩
    rw [Fields.toConfig, hbackend, hprecision, hmax, hpolicy]

theorem parse?_of_isText {v : Json} {text : String} (h : Json.IsText v text.toList) :
    parse? text = ofJson? v := by
  rw [parse?, Json.parse?_of_isText h, Option.bind_some]

section Members

variable {members members' : List (Option String × Json)}

theorem FieldIs.perm {α : Type} {valid : Json → α → Prop} {default x : α} {vs vs' : List Json}
    (h : FieldIs valid default vs x) (hperm : vs.Perm vs') : FieldIs valid default vs' x := by
  cases h with
  | absent =>
      obtain rfl := List.nil_perm.mp hperm
      exact .absent
  | given h =>
      obtain rfl := List.singleton_perm.mp hperm
      exact .given h

theorem FieldIs.length_le {α : Type} {valid : Json → α → Prop} {default x : α} {vs : List Json}
    (h : FieldIs valid default vs x) : vs.length ≤ 1 := by
  cases h with
  | absent => exact Nat.zero_le 1
  | given _ => exact Nat.le_refl 1

theorem GivenBy.perm {c : Config} (h : GivenBy members c) (hperm : members.Perm members') :
    GivenBy members' c where
  named := fun member hmember => h.named member (hperm.mem_iff.mpr hmember)
  backend := h.backend.perm (hperm.filterMap _)
  precision := h.precision.perm (hperm.filterMap _)
  maxPrecision := h.maxPrecision.perm (hperm.filterMap _)
  policy := h.policy.perm (hperm.filterMap _)

theorem GivenBy.length_valuesOf_le {c : Config} (h : GivenBy members c) {name : String}
    (hname : name ∈ fieldNames) : (Json.valuesOf name members).length ≤ 1 := by
  simp only [fieldNames, List.mem_cons, List.not_mem_nil, or_false] at hname
  rcases hname with rfl | rfl | rfl | rfl
  · exact h.backend.length_le
  · exact h.precision.length_le
  · exact h.maxPrecision.length_le
  · exact h.policy.length_le

end Members

/-- The fields of a configuration as members, in their order. -/
def members (c : Config) : List (Option String × Json) :=
  [(some "backend", .string (some c.backend.name)),
    (some "precision", .number (Digits.ofNat c.precision)),
    (some "max_precision", .number (Digits.ofNat c.maxPrecision)),
    (some "domain_error_policy", .string (some c.policy.name))]

/-- A configuration written as the object of its fields, without blanks. -/
def listing (c : Config) : List Char :=
  let quote (text : String) : List Char := '"' :: (text.toList ++ ['"'])
  let member (name : String) (value : List Char) : List Char :=
    '"' :: (name.toList ++ '"' :: ':' :: value)
  '\x7b' :: (member "backend" (quote c.backend.name) ++
    ',' :: (member "precision" (Digits.ofNat c.precision) ++
      ',' :: (member "max_precision" (Digits.ofNat c.maxPrecision) ++
        ',' :: member "domain_error_policy" (quote c.policy.name))) ++ ['\x7d'])

theorem isNumber_ofNat (n : Nat) : Json.IsNumber (Digits.ofNat n) := by
  have hdigits : areDigits (Digits.ofNat n) = true := Digits.areDigits_padded _ n
  have hwhole : Json.IsWhole (Digits.ofNat n) := by
    obtain ⟨c, rest, hcons⟩ := List.exists_cons_of_ne_nil (Digits.ofNat_ne_nil n)
    by_cases hc : c = '0'
    · rw [Digits.ofNat_of_head? (by rw [hcons, hc]; rfl)]
      exact .zero
    · rw [hcons] at hdigits ⊢
      exact .positive hc hdigits
  have hnumber := Json.IsNumber.intro (Or.inl rfl) hwhole .none .none
  rwa [List.nil_append, List.append_nil, List.append_nil] at hnumber

theorem isText_listing (c : Config) : Json.IsText (.object c.members) c.listing := by
  have hbackend : c.backend.name.toList.all Json.isPlain = true := by
    cases c.backend <;> decide
  have hpolicy : c.policy.name.toList.all Json.isPlain = true := by
    cases c.policy <;> decide
  apply Json.IsText.of_spells
  refine .object (.cons (.of_plain (by decide) (.string (Json.quoted_of_plain hbackend))) ?_)
  refine .cons (.of_plain (by decide) (.number (isNumber_ofNat c.precision))) ?_
  refine .cons (.of_plain (by decide) (.number (isNumber_ofNat c.maxPrecision))) ?_
  exact .one (.of_plain (by decide) (.string (Json.quoted_of_plain hpolicy)))

theorem givenBy_members {c : Config} (hprecision : c.precision < precisionBound)
    (hmax : c.maxPrecision < precisionBound) : GivenBy c.members c := by
  have hnumber {n : Nat} (h : n < precisionBound) :
      Json.IsPrecision (.number (Digits.ofNat n)) n := by
    have hdigits := Json.IsPrecision.digits (Digits.areDigits_padded _ n)
      (lt_of_eq_of_lt (Digits.toNat_ofNat n) h)
    rwa [← Digits.ofNat, Digits.toNat_ofNat] at hdigits
  refine ⟨by simp [members], ?_, ?_, ?_, ?_⟩
  · exact .given .string
  · exact .given (hnumber hprecision)
  · exact .given (hnumber hmax)
  · exact .given .string

/-- How objects are decoded. -/
structure DecodesByName : Prop where
  /-- The configuration is that of the members under the four names, with the defaults for
  those that are missing, and there is none if one of them is not valid. -/
  given : ∀ {members : List (Option String × Json)} {text : String},
    Json.IsText (.object members) text.toList → ∀ c, parse? text = some c ↔ GivenBy members c
  /-- The order of the members does not matter. -/
  order : ∀ {members members' : List (Option String × Json)} {text text' : String},
    Json.IsText (.object members) text.toList → Json.IsText (.object members') text'.toList →
      members.Perm members' → parse? text = parse? text'
  /-- None of the names may occur twice. -/
  twice : ∀ {members : List (Option String × Json)} {text : String},
    Json.IsText (.object members) text.toList → ∀ name ∈ fieldNames,
      2 ≤ (Json.valuesOf name members).length → parse? text = none
  /-- No other text gives a configuration, apart from lists of the fields in their order. -/
  strict : ∀ {text : String} {c : Config}, parse? text = some c →
    (∃ members, Json.IsText (.object members) text.toList ∧ GivenBy members c) ∨
      ∃ items, Json.IsText (.array items) text.toList
  /-- However its fields are written down, a configuration is read back. -/
  listed : ∀ c : Config, c.precision < precisionBound → c.maxPrecision < precisionBound →
    parse? (String.ofList c.listing) = some c ∧
      ∀ text : String, Json.IsText (.object c.members) text.toList → parse? text = some c

/-- Objects are decoded by the names of their members. -/
theorem decodesByName : DecodesByName := by
  have hgiven {members : List (Option String × Json)} {text : String}
      (htext : Json.IsText (.object members) text.toList) (c : Config) :
      parse? text = some c ↔ GivenBy members c := by
    rw [parse?_of_isText htext, ofJson?_object_eq_some_iff]
  refine ⟨hgiven, ?_, ?_, ?_, ?_⟩
  · intro members members' text text' htext htext' hperm
    apply Option.ext
    intro c
    rw [hgiven htext, hgiven htext']
    exact ⟨fun h => h.perm hperm, fun h => h.perm hperm.symm⟩
  · intro members text htext name hname htwice
    rw [Option.eq_none_iff_forall_ne_some]
    intro c hc
    have honce := ((hgiven htext c).mp hc).length_valuesOf_le hname
    omega
  · intro text c hparse
    obtain ⟨v, hv, hc⟩ := Option.bind_eq_some_iff.mp hparse
    have htext := (Json.parse?_eq_some_iff text.toList v).mp hv
    cases v with
    | object members => exact Or.inl ⟨members, htext, (hgiven htext c).mp hparse⟩
    | array items => exact Or.inr ⟨items, htext⟩
    | _ => cases hc
  · intro c hprecision hmax
    have hback (text : String) (htext : Json.IsText (.object c.members) text.toList) :
        parse? text = some c := (hgiven htext c).mpr (givenBy_members hprecision hmax)
    refine ⟨hback _ ?_, hback⟩
    rw [String.toList_ofList]
    exact c.isText_listing

/-- A key may be written with escapes, and what is skipped may hold half of a pair. -/
example :
    parse? " \x7b\"x\":[\x7b\x7d, \"\\ud800\"],\t\"x\":0, \"back\\u0065nd\":\"decimal\"\x7d\n" =
      some exact := by decide +kernel

end Config

end DeskCalc
