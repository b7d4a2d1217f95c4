import VirtualPeople.Labeler
import Mathlib.Data.Option.Basic

/-!
# Fingerprints that come with an input

Two inputs are stamped to the same input just if they differ in nothing but fingerprints that are
stamped over (`LabelerInput.stamped_eq_stamped_iff`). An input is labeled as what it is stamped to,
so such fingerprints count for nothing, and stamping an input first changes nothing either
(`Labeler.label_of_sameIds`).
-/

namespace VirtualPeople

/-- Two records are equal if all their fields are. -/
theorem Fields.ext : ∀ {fs : Fields} {r s : fs.Record},
    (∀ t (a : fs.At t), a.get r = a.get s) → r = s
  | .nil, (), (), _ => rfl
  | .cons _ _ _, (_, _), (_, _), h =>
    Prod.ext (h _ .here) (Fields.ext fun t a => h t (.there a))

/-- Equal but for the fingerprint. -/
def EventId.SameId : EventId → EventId → Prop
  | (id, _, ()), (id', _, ()) => id = id'

/-- Equal but for the fingerprint, if the user id is set. -/
def UserInfo.SameUser : UserInfo → UserInfo → Prop
  | (id, print, demo, ()), (id', print', demo', ()) =>
    id = id' ∧ demo = demo' ∧ (id = none → print = print')

abbrev UserSlot :=
  Schema.profileInfo.fields.At (.message Schema.userInfo.name Schema.userInfo.fields)

/-- The same users in every slot that the schema has. -/
def ProfileInfo.SameUsers (p q : ProfileInfo) : Prop :=
  ∀ slot : UserSlot, Option.Rel UserInfo.SameUser (slot.get p) (slot.get q)

/-- Equal but for fingerprints of a present event id and of users whose id is set. -/
def LabelerInput.SameIds : LabelerInput → LabelerInput → Prop
  | (time, agent, id, geo, profile, ()), (time', agent', id', geo', profile', ()) =>
    time = time' ∧ agent = agent' ∧ Option.Rel EventId.SameId id id' ∧ geo = geo' ∧
      Option.Rel ProfileInfo.SameUsers profile profile'

theorem map_eq_map_iff {α β : Type} {f : α → β} {r : α → α → Prop}
    (h : ∀ a b, f a = f b ↔ r a b) : ∀ {a b : Option α}, a.map f = b.map f ↔ Option.Rel r a b
  | none, none => iff_of_true rfl .none
  | none, some _ => iff_of_false nofun nofun
  | some _, none => iff_of_false nofun nofun
  | some a, some b => by
    rw [Option.map_some, Option.map_some, Option.some.injEq, h]
    exact ⟨.some, fun hr => by cases hr; assumption⟩

theorem EventId.stamped_eq_stamped_iff (e e' : EventId) :
    e.stamped = e'.stamped ↔ e.SameId e' := by
  obtain ⟨id, print, ⟨⟩⟩ := e
  obtain ⟨id', print', ⟨⟩⟩ := e'
  constructor
  · intro h
    exact congrArg Prod.fst h
  · rintro (rfl : id = id')
    rfl

theorem UserInfo.stamped_eq_stamped_iff (u v : UserInfo) :
    u.stamped = v.stamped ↔ u.SameUser v := by
  obtain ⟨id, print, demo, ⟨⟩⟩ := u
  obtain ⟨id', print', demo', ⟨⟩⟩ := v
  constructor
  · intro h
    rcases id with _ | id <;> rcases id' with _ | id'
    · cases h
      exact ⟨rfl, rfl, fun _ => rfl⟩
    · cases h
    · cases h
    · cases h
      exact ⟨rfl, rfl, nofun⟩
  · rintro ⟨rfl, rfl, h⟩
    rcases id with _ | id
    · rw [h rfl]
    · rfl

namespace ProfileInfo

/-- A profile has no fields but its slots. -/
theorem field_type {t : FieldType} (a : Schema.profileInfo.fields.At t) :
    t = .message Schema.userInfo.name Schema.userInfo.fields := by
  rcases a with _ | _ | _ | _ | _ | _ | _ | _ | _ | _ | _ | _ | _ | _ | a
  case there.there.there.there.there.there.there.there.there.there.there.there.there.there =>
    cases a
  all_goals rfl

/-- Stamping stamps the user of every slot. -/
theorem get_stamped (p : ProfileInfo) (slot : UserSlot) :
    slot.get p.stamped = Option.map UserInfo.stamped (slot.get p) := by
  rcases slot with _ | _ | _ | _ | _ | _ | _ | _ | _ | _ | _ | _ | _ | _ | slot
  case there.there.there.there.there.there.there.there.there.there.there.there.there.there =>
    cases slot
  all_goals rfl

theorem stamped_eq_stamped_iff (p q : ProfileInfo) : p.stamped = q.stamped ↔ p.SameUsers q := by
  have hslot (slot : UserSlot) : slot.get p.stamped = slot.get q.stamped ↔
      Option.Rel UserInfo.SameUser (slot.get p) (slot.get q) := by
    rw [get_stamped, get_stamped]
    exact map_eq_map_iff UserInfo.stamped_eq_stamped_iff
  constructor
  · intro h slot
    rw [← hslot, h]
  · intro h
    refine Fields.ext fun t a => ?_
    obtain rfl := field_type a
    exact (hslot a).2 (h a)

end ProfileInfo

namespace LabelerInput

/-- Two inputs are stamped alike just if they differ in nothing but fingerprints that are stamped
over. -/
theorem stamped_eq_stamped_iff (a b : LabelerInput) : a.stamped = b.stamped ↔ a.SameIds b := by
  obtain ⟨time, agent, id, geo, profile, ⟨⟩⟩ := a
  obtain ⟨time', agent', id', geo', profile', ⟨⟩⟩ := b
  have hid : id.map EventId.stamped = id'.map EventId.stamped ↔ Option.Rel EventId.SameId id id' :=
    map_eq_map_iff EventId.stamped_eq_stamped_iff
  have hprofile : profile.map ProfileInfo.stamped = profile'.map ProfileInfo.stamped ↔
      Option.Rel ProfileInfo.SameUsers profile profile' :=
    map_eq_map_iff ProfileInfo.stamped_eq_stamped_iff
  rw [SameIds, ← hid, ← hprofile]
  constructor
  · intro h
    have htime : time = time' := congrArg (·.1) h
    have hagent : agent = agent' := congrArg (·.2.1) h
    have hid : id.map EventId.stamped = id'.map EventId.stamped := congrArg (·.2.2.1) h
    have hgeo : geo = geo' := congrArg (·.2.2.2.1) h
    have hprofile : profile.map ProfileInfo.stamped = profile'.map ProfileInfo.stamped :=
      congrArg (·.2.2.2.2.1) h
    exact ⟨htime, hagent, hid, hgeo, hprofile⟩
  · rintro ⟨rfl, rfl, h, rfl, h'⟩
    rw [stamped, stamped, h, h']

end LabelerInput

/-! ### Stamping twice -/

theorem EventId.stamped_stamped : ∀ e : EventId, e.stamped.stamped = e.stamped
  | (_, _, ()) => rfl

theorem UserInfo.stamped_stamped : ∀ u : UserInfo, u.stamped.stamped = u.stamped
  | (none, _, _, ()) => rfl
  | (some _, _, _, ()) => rfl

theorem map_map_of_idempotent {α : Type} {f : α → α} (h : ∀ a, f (f a) = f a) :
    ∀ o : Option α, (o.map f).map f = o.map f
  | none => rfl
  | some a => congrArg some (h a)

theorem ProfileInfo.stamped_stamped (p : ProfileInfo) : p.stamped.stamped = p.stamped := by
  refine Fields.ext fun t a => ?_
  obtain rfl := field_type a
  rw [get_stamped, get_stamped]
  exact map_map_of_idempotent UserInfo.stamped_stamped (a.get p)

theorem LabelerInput.stamped_stamped : ∀ a : LabelerInput, a.stamped.stamped = a.stamped
  | (time, agent, id, geo, profile, ()) => by
    have hid : (id.map EventId.stamped).map EventId.stamped = id.map EventId.stamped :=
      map_map_of_idempotent EventId.stamped_stamped id
    have hprofile : (profile.map ProfileInfo.stamped).map ProfileInfo.stamped =
        profile.map ProfileInfo.stamped :=
      map_map_of_idempotent ProfileInfo.stamped_stamped profile
    rw [stamped, stamped, hid, hprofile]

/-! ### Labels -/

/-- An input becomes the event of what it is stamped to. -/
theorem Event.ofInput_eq_of_stamped_eq {a b : LabelerInput} (h : a.stamped = b.stamped) :
    ofInput a = ofInput b := by
  rw [ofInput, ofInput, h]

namespace Labeler

theorem label_eq_of_stamped_eq (l : Labeler) {a b : LabelerInput} (h : a.stamped = b.stamped) :
    l.label a = l.label b := by
  rw [label, label, Event.ofInput_eq_of_stamped_eq h]

/-- Fingerprints that come with the ids of an input count for nothing, in the label and in the
trace, and so does stamping the input before it is labeled. -/
theorem label_of_sameIds (l : Labeler) :
    (∀ a b, LabelerInput.SameIds a b → l.label a = l.label b) ∧
      (∀ a, LabelerInput.stamped (LabelerInput.stamped a) = LabelerInput.stamped a) ∧
      ∀ a, l.label (LabelerInput.stamped a) = l.label a := by
  refine ⟨fun a b h => ?_, LabelerInput.stamped_stamped, fun a => ?_⟩
  · exact l.label_eq_of_stamped_eq ((LabelerInput.stamped_eq_stamped_iff a b).2 h)
  · exact l.label_eq_of_stamped_eq (LabelerInput.stamped_stamped a)

end Labeler

/-- An input with an event id and with an email user, by their fingerprints. -/
def claiming (idPrint userPrint : Option UInt64) : LabelerInput :=
  (none, none, some (some "e1", idPrint, ()), none,
    some (some (some "u1", userPrint, none, ()), none, none, none, none, none, none, none, none,
      none, none, none, none, none, ()), ())

theorem LabelerInput.sameIds_claiming (idPrint idPrint' userPrint userPrint' : Option UInt64) :
    SameIds (claiming idPrint userPrint) (claiming idPrint' userPrint') := by
  rw [← stamped_eq_stamped_iff]
  rfl

/-- Whoever claims other fingerprints is labeled as one who claims none. -/
theorem Labeler.label_claiming :
    claiming (some 7) (some 8) ≠ claiming none none ∧
      LabelerInput.SameIds (claiming (some 7) (some 8)) (claiming none none) ∧
      Labeler.label ⟨⟨"root", none, false, .stop⟩, true⟩ (claiming (some 7) (some 8)) =
        Labeler.label ⟨⟨"root", none, false, .stop⟩, true⟩ (claiming none none) := by
  have hids := LabelerInput.sameIds_claiming (some 7) none (some 8) none
  refine ⟨fun h => ?_, hids, (label_of_sameIds _).1 _ _ hids⟩
  have hprint : some (7 : UInt64) = none := congrArg LabelerInput.fingerprint h
  cases hprint

end VirtualPeople
