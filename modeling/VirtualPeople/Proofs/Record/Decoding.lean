import VirtualPeople.Proofs.Json.Decoding
import VirtualPeople.Proofs.Record.Codec

/-!
# Records are read back

A record whose numbers are finite is what the decoder of its schema reads from its JSON
(`Fields.encodes`), if no message of the schema has two fields of one name. The JSON of a record
without floating-point numbers is read from its text, and it nests no deeper than the schema
(`Fields.plain_toJson`).
-/

namespace VirtualPeople

open Json

/-- A scalar is what the decoder of its kind reads from its JSON. -/
theorem ScalarKind.encodes (k : ScalarKind) {v : k.Carrier} (h : k.isFinite v) :
    Encodes k.decoder (k.toJson v) v := by
  cases k with
  | int32 => exact .int32 v
  | uint32 => exact .uint32 v
  | int64 => exact .int64 v
  | uint64 => exact .uint64 v
  | float => exact .single h
  | double => exact .double h
  | bool => exact .bool v
  | gender => exact .oneOf (by cases v <;> decide)
  | string => exact .string v

/-- The value of a slot, if it holds anything. -/
def FieldType.slotValue : (t : FieldType) → t.Slot → Option Json
  | .scalar k, slot => Option.map k.toJson slot
  | .message _ fs, slot => Option.map (fun r => .object (fs.members r)) slot
  | .list t, items => if items.isEmpty then none else some (.array (List.map t.itemJson items))

def Fields.values : (fs : Fields) → fs.Record → List (Option Json)
  | .nil, _ => []
  | .cons _ t rest, (slot, r) => t.slotValue slot :: rest.values r

theorem FieldType.slotMember_eq (name : String) : ∀ (t : FieldType) (slot : t.Slot),
    t.slotMember name slot = member name (t.slotValue slot)
  | .scalar _, _ => rfl
  | .message _ _, _ => rfl
  | .list _, [] => rfl
  | .list _, _ :: _ => rfl

theorem Fields.members_eq : ∀ (fs : Fields) (r : fs.Record),
    fs.members r = membersOf fs.names (fs.values r)
  | .nil, _ => rfl
  | .cons name t rest, (slot, r) => by
    rw [members, t.slotMember_eq name slot, members_eq rest r]
    rfl

theorem Fields.length_values : ∀ (fs : Fields) (r : fs.Record),
    fs.names.length = (fs.values r).length
  | .nil, _ => rfl
  | .cons _ _ rest, (_, r) => congrArg Nat.succ (length_values rest r)

theorem Fields.nodup_names : ∀ {fs : Fields}, fs.distinct → fs.names.Nodup
  | .nil, _ => List.nodup_nil
  | .cons name t rest, h => by
    simp only [distinct, Bool.and_eq_true, Bool.not_eq_true', List.contains_eq_mem,
      decide_eq_false_iff_not] at h
    exact List.nodup_cons.2 ⟨h.1.1, nodup_names h.2⟩

/-- A slot is read back if items of its type are. -/
theorem FieldType.slot_encodes : ∀ {t : FieldType},
    (∀ v : t.Item, t.itemFinite v → Encodes t.itemDecoder (t.itemJson v) v) →
    ∀ {slot : t.Slot}, t.slotFinite slot → FieldEncodes t.slotDecoder (t.slotValue slot) slot
  | .scalar _, hitem, slot, h =>
    .optional fun v hv => hitem v (by cases hv; exact h)
  | .message _ _, hitem, slot, h =>
    .optional fun r hr => hitem r (by cases hr; exact h)
  | .list _, _, [], _ => ⟨nofun, fun _ _ _ => rfl⟩
  | .list _, hitem, x :: xs, h => .given (hitem (x :: xs) h)

mutual

theorem FieldType.item_encodes : ∀ {t : FieldType} (v : t.Item), t.distinct → t.itemFinite v →
    Encodes t.itemDecoder (t.itemJson v) v
  | .scalar k, _, _, h => k.encodes h
  | .message _ fs, r, hd, h => by
    rw [FieldType.itemJson, fs.members_eq]
    exact .record (Fields.nodup_names hd) (fs.length_values r) (Fields.slots_encode r hd h)
  | .list t, items, hd, h =>
    .list fun x hx => FieldType.item_encodes x hd (List.all_eq_true.1 h x hx)

theorem Fields.slots_encode : ∀ {fs : Fields} (r : fs.Record), fs.distinct → fs.finite r →
    BodyEncodes fs.slots (fs.values r) r
  | .nil, _, _, _ => ⟨nofun, fun _ _ _ => rfl⟩
  | .cons name t rest, (slot, r), hd, h => by
    simp only [Fields.distinct, Bool.and_eq_true] at hd
    obtain ⟨hslot, hr⟩ := Bool.and_eq_true_iff.1 h
    have hfirst := FieldType.slot_encodes (fun v => FieldType.item_encodes v hd.1.2) hslot
    have hothers := Fields.slots_encode r hd.2 hr
    refine ⟨List.forall_mem_cons.2 ⟨hfirst.readable, hothers.readable⟩, fun hg n hdepth => ?_⟩
    obtain ⟨hdepth, hdepths⟩ := List.forall_mem_cons.1 hdepth
    rw [Fields.values, List.map_cons, Fields.slots, List.head?_cons, Option.getD_some,
      List.tail_cons, hfirst.reads hg n hdepth, hothers.reads hg n hdepths]

end

/-- A record is what the decoder of its schema reads from its JSON. -/
theorem Fields.encodes {fs : Fields} {r : fs.Record} (hd : fs.distinct) (h : fs.finite r) :
    Encodes fs.decoder (fs.toJson r) r := by
  rw [toJson, members_eq]
  exact .record (nodup_names hd) (fs.length_values r) (slots_encode r hd h)

def ScalarKind.isExact (k : ScalarKind) : Bool := k != .float && k != .double

mutual

/-- Whether a type has no floating-point numbers. -/
def FieldType.isExact : FieldType → Bool
  | .scalar k => k.isExact
  | .message _ fs => fs.isExact
  | .list t => t.isExact

def Fields.isExact : Fields → Bool
  | .nil => true
  | .cons _ t rest => t.isExact && rest.isExact

end

mutual

/-- How deep the JSON of a type may nest. -/
def FieldType.levels : FieldType → Nat
  | .scalar _ => 0
  | .message _ fs => fs.levels + 1
  | .list t => t.levels + 1

def Fields.levels : Fields → Nat
  | .nil => 0
  | .cons _ t rest => max t.levels rest.levels

end

theorem ScalarKind.isFinite_of_isExact {k : ScalarKind} (h : k.isExact) (v : k.Carrier) :
    k.isFinite v := by
  cases k with
  | float => cases h
  | double => cases h
  | _ => rfl

mutual

theorem FieldType.itemFinite_of_isExact : ∀ {t : FieldType} (v : t.Item), t.isExact →
    t.itemFinite v
  | .scalar _, v, h => ScalarKind.isFinite_of_isExact h v
  | .message _ _, r, h => Fields.finite_of_isExact r h
  | .list _, _, h => List.all_eq_true.2 fun item _ => FieldType.itemFinite_of_isExact item h

theorem FieldType.slotFinite_of_isExact : ∀ {t : FieldType} (slot : t.Slot), t.isExact →
    t.slotFinite slot
  | .scalar _, _, h => (Option.all_eq_true _ _).2 fun v _ => ScalarKind.isFinite_of_isExact h v
  | .message _ _, _, h => (Option.all_eq_true _ _).2 fun r _ => Fields.finite_of_isExact r h
  | .list _, _, h => List.all_eq_true.2 fun item _ => FieldType.itemFinite_of_isExact item h

theorem Fields.finite_of_isExact : ∀ {fs : Fields} (r : fs.Record), fs.isExact → fs.finite r
  | .nil, _, _ => rfl
  | .cons _ t rest, (slot, r), h => by
    obtain ⟨ht, hrest⟩ := Bool.and_eq_true_iff.1 h
    exact Bool.and_eq_true_iff.2
      ⟨FieldType.slotFinite_of_isExact slot ht, Fields.finite_of_isExact r hrest⟩

end

/-- Nests no deeper than a number of levels, and is read back from its text, every part of it. -/
structure Json.Plain (levels : Nat) (v : Json) : Prop where
  depth_le : v.depth ≤ levels
  legible : ∀ u ∈ v.parts, u.Legible

namespace Json

variable {levels more : Nat} {v : Json}

theorem Plain.mono (h : v.Plain levels) (hle : levels ≤ more) : v.Plain more :=
  ⟨h.depth_le.trans hle, h.legible⟩

theorem plain_string (s : String) : (Json.string s).Plain 0 :=
  ⟨le_rfl, List.forall_mem_singleton.2 trivial⟩

theorem plain_ofInt {i : Int} (h : -9223372036854775808 ≤ i ∧ i < 18446744073709551616) :
    (ofInt i).Plain 0 := by
  rw [ofInt, dif_pos h]
  exact ⟨le_rfl, List.forall_mem_singleton.2 trivial⟩

theorem plain_array {items : List Json} (h : ∀ item ∈ items, item.Plain levels) :
    (Json.array items).Plain (levels + 1) := by
  constructor
  · have hdepth : ∀ {items : List Json}, (∀ item ∈ items, item.Plain levels) →
        itemsDepth items ≤ levels := by
      intro items h
      induction items with
      | nil => exact Nat.zero_le levels
      | cons item rest ih =>
        obtain ⟨hfirst, hrest⟩ := List.forall_mem_cons.1 h
        exact max_le hfirst.depth_le (ih hrest)
    exact Nat.succ_le_succ (hdepth h)
  · rintro u (_ | ⟨_, hu⟩)
    · trivial
    · obtain ⟨item, hitem, hpart⟩ := mem_itemsParts.1 hu
      exact (h item hitem).legible u hpart

theorem plain_object {members : List (String × Json)} (h : ∀ m ∈ members, m.2.Plain levels) :
    (Json.object members).Plain (levels + 1) := by
  constructor
  · have hdepth : ∀ {members : List (String × Json)}, (∀ m ∈ members, m.2.Plain levels) →
        membersDepth members ≤ levels := by
      intro members h
      induction members with
      | nil => exact Nat.zero_le levels
      | cons m rest ih =>
        obtain ⟨hfirst, hrest⟩ := List.forall_mem_cons.1 h
        exact max_le hfirst.depth_le (ih hrest)
    exact Nat.succ_le_succ (hdepth h)
  · rintro u (_ | ⟨_, hu⟩)
    · trivial
    · obtain ⟨m, hm, hpart⟩ := mem_membersParts.1 hu
      exact (h m hm).legible u hpart

end Json

theorem ScalarKind.plain_toJson {k : ScalarKind} (h : k.isExact) (v : k.Carrier) :
    (k.toJson v).Plain 0 := by
  cases k with
  | int32 => exact plain_ofInt (fits_int32 v)
  | uint32 =>
    have hplain := plain_ofInt (fits_nat (v.toNat_lt.trans (by decide)))
    exact hplain
  | int64 => exact plain_ofInt (fits_int64 v)
  | uint64 =>
    have hplain := plain_ofInt (fits_nat v.toNat_lt)
    exact hplain
  | float => cases h
  | double => cases h
  | bool => exact ⟨le_rfl, List.forall_mem_singleton.2 trivial⟩
  | gender => exact plain_string v.name
  | string => exact plain_string v

mutual

theorem FieldType.plain_itemJson : ∀ {t : FieldType} (v : t.Item), t.isExact →
    (t.itemJson v).Plain t.levels
  | .scalar _, v, h => ScalarKind.plain_toJson h v
  | .message _ _, r, h => plain_object (Fields.plain_members r h)
  | .list _, _, h =>
    plain_array (List.forall_mem_map.2 fun item _ => FieldType.plain_itemJson item h)

theorem FieldType.plain_slotMember {name : String} : ∀ {t : FieldType} (slot : t.Slot),
    t.isExact → ∀ m ∈ t.slotMember name slot, m.2.Plain t.levels
  | .scalar _, none, _ => nofun
  | .scalar _, some v, h => List.forall_mem_singleton.2 (ScalarKind.plain_toJson h v)
  | .message _ _, none, _ => nofun
  | .message _ _, some r, h =>
    List.forall_mem_singleton.2 (plain_object (Fields.plain_members r h))
  | .list _, [], _ => nofun
  | .list t, item :: items, h => by
    refine List.forall_mem_singleton.2 (plain_array (List.forall_mem_map.2 fun v _ => ?_))
    exact FieldType.plain_itemJson v h

theorem Fields.plain_members : ∀ {fs : Fields} (r : fs.Record), fs.isExact →
    ∀ m ∈ fs.members r, m.2.Plain fs.levels
  | .nil, _, _ => nofun
  | .cons name t rest, (slot, r), h => by
    obtain ⟨ht, hrest⟩ := Bool.and_eq_true_iff.1 h
    refine List.forall_mem_append.2 ⟨fun m hm => ?_, fun m hm => ?_⟩
    · exact (FieldType.plain_slotMember slot ht m hm).mono (Nat.le_max_left _ _)
    · exact (Fields.plain_members r hrest m hm).mono (Nat.le_max_right _ _)

end

theorem Fields.plain_toJson {fs : Fields} (r : fs.Record) (h : fs.isExact) :
    (fs.toJson r).Plain (fs.levels + 1) :=
  plain_object (plain_members r h)

end VirtualPeople
