import VirtualPeople.Proofs.Json.Writing
import VirtualPeople.Proofs.Number.Single
import VirtualPeople.Record.Codec
import Mathlib.Data.List.Perm.Basic

/-!
# Records are told by their JSON

A record whose numbers are finite is told by the canonical form of its JSON
(`Fields.members_inj`): the order of the members is lost there, but each is found by its name.
-/

namespace VirtualPeople

namespace Json

theorem canonicalItems_eq_map : ∀ items : List Json, canonicalItems items = items.map canonical
  | [] => rfl
  | item :: rest => congrArg (item.canonical :: ·) (canonicalItems_eq_map rest)

theorem canonicalMembers_eq_map : ∀ members : List (String × Json),
    canonicalMembers members = members.map fun m => (m.1, m.2.canonical)
  | [] => rfl
  | (name, value) :: rest =>
    congrArg ((name, value.canonical) :: ·) (canonicalMembers_eq_map rest)

/-- Objects of one canonical form have the same members, perhaps in another order. -/
theorem perm_of_canonical_eq {ms ns : List (String × Json)}
    (h : (object ms).canonical = (object ns).canonical) :
    (canonicalMembers ms).Perm (canonicalMembers ns) := by
  simp only [canonical, object.injEq] at h
  have hsorted := List.mergeSort_perm (canonicalMembers ms) fun a b => decide (a.1 ≤ b.1)
  rw [h] at hsorted
  exact hsorted.symm.trans (List.mergeSort_perm _ _)

theorem canonical_eq_of_canonicalText_eq {v w : Json} (h : v.canonicalText = w.canonicalText) :
    v.canonical = w.canonical :=
  text_inj h

theorem ofInt_inj {i j : Int} (hi : -9223372036854775808 ≤ i ∧ i < 18446744073709551616)
    (hj : -9223372036854775808 ≤ j ∧ j < 18446744073709551616) (h : ofInt i = ofInt j) : i = j := by
  rw [ofInt, ofInt, dif_pos hi, dif_pos hj] at h
  exact int.inj h

theorem ofFloat_inj {x y : Float} (hx : isFinite x) (hy : isFinite y) (h : ofFloat x = ofFloat y) :
    x = y := by
  rw [ofFloat, ofFloat, dif_pos hx, dif_pos hy] at h
  exact float.inj h

theorem canonical_ofFloat (x : Float) : (ofFloat x).canonical = ofFloat x := by
  unfold ofFloat
  split_ifs <;> rfl

theorem canonical_ofInt (i : Int) : (ofInt i).canonical = ofInt i := by
  unfold ofInt
  split_ifs
  · rfl
  · exact canonical_ofFloat _

end Json

namespace ScalarKind

/-- Whether JSON has a number for a scalar. -/
def isFinite : (k : ScalarKind) → k.Carrier → Bool
  | float, v => VirtualPeople.isFinite (widen v)
  | double, v => VirtualPeople.isFinite v
  | _, _ => true

theorem canonical_toJson (k : ScalarKind) (v : k.Carrier) :
    (k.toJson v).canonical = k.toJson v := by
  cases k with
  | int32 => exact Json.canonical_ofInt v.toInt
  | uint32 => exact Json.canonical_ofInt v.toNat
  | int64 => exact Json.canonical_ofInt v.toInt
  | uint64 => exact Json.canonical_ofInt v.toNat
  | float => exact Json.canonical_ofFloat (widen v)
  | double => exact Json.canonical_ofFloat v
  | bool => rfl
  | gender => rfl
  | string => rfl

theorem fits_int32 (v : Int32) :
    -9223372036854775808 ≤ v.toInt ∧ v.toInt < 18446744073709551616 := by
  have := v.le_toInt
  have := v.toInt_lt
  omega

theorem fits_int64 (v : Int64) :
    -9223372036854775808 ≤ v.toInt ∧ v.toInt < 18446744073709551616 := by
  have := v.le_toInt
  have := v.toInt_lt
  omega

theorem fits_nat {n : Nat} (h : n < 2 ^ 64) :
    -9223372036854775808 ≤ (n : Int) ∧ (n : Int) < 18446744073709551616 := by
  omega

/-- A scalar is told by its JSON. -/
theorem toJson_inj (k : ScalarKind) {a b : k.Carrier} (ha : k.isFinite a) (hb : k.isFinite b)
    (h : k.toJson a = k.toJson b) : a = b := by
  cases k with
  | int32 => exact Int32.toInt.inj (Json.ofInt_inj (fits_int32 a) (fits_int32 b) h)
  | int64 => exact Int64.toInt.inj (Json.ofInt_inj (fits_int64 a) (fits_int64 b) h)
  | uint32 =>
    have hnat := Json.ofInt_inj (fits_nat (a.toNat_lt.trans (by decide)))
      (fits_nat (b.toNat_lt.trans (by decide))) h
    exact UInt32.toNat_inj.1 (Int.ofNat.inj hnat)
  | uint64 =>
    have hnat := Json.ofInt_inj (fits_nat a.toNat_lt) (fits_nat b.toNat_lt) h
    exact UInt64.toNat_inj.1 (Int.ofNat.inj hnat)
  | float => exact widen_inj ha (Json.ofFloat_inj ha hb h)
  | double => exact Json.ofFloat_inj ha hb h
  | bool => exact Json.bool.inj h
  | gender =>
    have hname := Json.string.inj h
    cases a <;> cases b <;> first | rfl | exact absurd hname (by decide)
  | string => exact Json.string.inj h

end ScalarKind

mutual

/-- Whether JSON has a number for every scalar of an item. -/
def FieldType.itemFinite : (t : FieldType) → t.Item → Bool
  | .scalar k, v => k.isFinite v
  | .message _ fs, r => fs.finite r
  | .list t, items => List.all items t.itemFinite

def FieldType.slotFinite : (t : FieldType) → t.Slot → Bool
  | .scalar k, slot => Option.all k.isFinite slot
  | .message _ fs, slot => Option.all fs.finite slot
  | .list t, items => List.all items t.itemFinite

def Fields.finite : (fs : Fields) → fs.Record → Bool
  | .nil, _ => true
  | .cons _ t rest, (slot, r) => t.slotFinite slot && rest.finite r

end

mutual

/-- Whether no message has two fields of one name. -/
def FieldType.distinct : FieldType → Bool
  | .scalar _ => true
  | .message _ fs => fs.distinct
  | .list t => t.distinct

def Fields.distinct : Fields → Bool
  | .nil => true
  | .cons name t rest => !rest.names.contains name && t.distinct && rest.distinct

end

theorem FieldType.name_of_mem_slotMember {name : String} : ∀ {t : FieldType} {slot : t.Slot}
    {m : String × Json}, m ∈ t.slotMember name slot → m.1 = name
  | .scalar _, none, _, h => by cases h
  | .scalar _, some _, _, h => by rw [List.mem_singleton.1 h]
  | .message _ _, none, _, h => by cases h
  | .message _ _, some _, _, h => by rw [List.mem_singleton.1 h]
  | .list _, [], _, h => by cases h
  | .list _, _ :: _, _, h => by rw [List.mem_singleton.1 h]

theorem FieldType.length_slotMember (name : String) : ∀ (t : FieldType) (slot : t.Slot),
    (t.slotMember name slot).length ≤ 1
  | .scalar _, none => Nat.zero_le 1
  | .scalar _, some _ => le_rfl
  | .message _ _, none => Nat.zero_le 1
  | .message _ _, some _ => le_rfl
  | .list _, [] => Nat.zero_le 1
  | .list _, _ :: _ => le_rfl

theorem Fields.name_of_mem_members : ∀ {fs : Fields} {r : fs.Record} {m : String × Json},
    m ∈ fs.members r → m.1 ∈ fs.names
  | .cons name t rest, (slot, r), m, h => by
    rcases List.mem_append.1 h with h | h
    · rw [FieldType.name_of_mem_slotMember h]
      exact List.mem_cons_self
    · exact List.mem_cons_of_mem _ (name_of_mem_members h)

theorem Fields.filter_members {name : String} {t : FieldType} {rest : Fields}
    (hname : name ∉ rest.names) (slot : t.Slot) (r : rest.Record) :
    (Json.canonicalMembers (t.slotMember name slot ++ rest.members r)).filter (·.1 = name) =
        Json.canonicalMembers (t.slotMember name slot) ∧
      (Json.canonicalMembers (t.slotMember name slot ++ rest.members r)).filter (·.1 ≠ name) =
        Json.canonicalMembers (rest.members r) := by
  have hfirst : ∀ m ∈ Json.canonicalMembers (t.slotMember name slot), m.1 = name := by
    intro m hm
    rw [Json.canonicalMembers_eq_map] at hm
    obtain ⟨m, hslot, rfl⟩ := List.mem_map.1 hm
    have hfirst : m.1 = name := FieldType.name_of_mem_slotMember hslot
    exact hfirst
  have hrest : ∀ m ∈ Json.canonicalMembers (rest.members r), m.1 ≠ name := by
    intro m hm heq
    rw [Json.canonicalMembers_eq_map] at hm
    obtain ⟨m, hmember, rfl⟩ := List.mem_map.1 hm
    have hmem := name_of_mem_members hmember
    exact hname (heq ▸ hmem)
  rw [Json.canonicalMembers_eq_map, List.map_append, ← Json.canonicalMembers_eq_map,
    ← Json.canonicalMembers_eq_map, List.filter_append, List.filter_append]
  constructor
  · rw [List.filter_eq_self.2 (by simpa using hfirst),
      List.filter_eq_nil_iff.2 (by simpa using hrest), List.append_nil]
  · rw [List.filter_eq_nil_iff.2 (by simpa using hfirst),
      List.filter_eq_self.2 (by simpa using hrest), List.nil_append]

theorem eq_of_map_eq {α β : Type} {f : α → β} : ∀ {as bs : List α},
    (∀ a ∈ as, ∀ b ∈ bs, f a = f b → a = b) → as.map f = bs.map f → as = bs
  | [], [], _, _ => rfl
  | a :: as, b :: bs, hinj, h => by
    obtain ⟨hhead, htail⟩ := List.cons.inj h
    rw [hinj a List.mem_cons_self b List.mem_cons_self hhead,
      eq_of_map_eq (fun a ha b hb => hinj a (List.mem_cons_of_mem _ ha) b
        (List.mem_cons_of_mem _ hb)) htail]

theorem eq_of_perm_of_length_le_one {α : Type} {as bs : List α} (h : as.Perm bs)
    (hlen : as.length ≤ 1) : as = bs := by
  rcases as with _ | ⟨a, _ | ⟨_, _⟩⟩
  · exact (List.nil_perm.1 h).symm
  · exact List.singleton_perm.1 h
  · exact absurd hlen (by simp)

/-- A slot is told by its member if items of its type are told by their JSON. -/
theorem FieldType.slotMember_inj {name : String} : ∀ {t : FieldType},
    (∀ {a b : t.Item}, t.itemFinite a → t.itemFinite b →
      (t.itemJson a).canonical = (t.itemJson b).canonical → a = b) →
    ∀ {a b : t.Slot}, t.slotFinite a → t.slotFinite b →
      Json.canonicalMembers (t.slotMember name a) = Json.canonicalMembers (t.slotMember name b) →
      a = b
  | .scalar _, _, none, none, _, _, _ => rfl
  | .scalar _, hinj, some _, some _, ha, hb, h =>
    congrArg some (hinj ha hb (Prod.mk.inj (List.cons.inj h).1).2)
  | .message _ _, _, none, none, _, _, _ => rfl
  | .message _ _, hinj, some _, some _, ha, hb, h =>
    congrArg some (hinj ha hb (Prod.mk.inj (List.cons.inj h).1).2)
  | .list _, _, [], [], _, _, _ => rfl
  | .list _, _, [], _ :: _, _, _, h => by cases h
  | .list _, _, _ :: _, [], _, _, h => by cases h
  | .list _, hinj, _ :: _, _ :: _, ha, hb, h => hinj ha hb (Prod.mk.inj (List.cons.inj h).1).2

mutual

theorem FieldType.itemJson_inj : ∀ {t : FieldType} {a b : t.Item}, t.distinct → t.itemFinite a →
    t.itemFinite b → (t.itemJson a).canonical = (t.itemJson b).canonical → a = b
  | .scalar k, a, b, _, ha, hb, h =>
    k.toJson_inj ha hb ((k.canonical_toJson a).symm.trans (h.trans (k.canonical_toJson b)))
  | .message _ fs, a, b, hd, ha, hb, h => Fields.members_inj hd ha hb (Json.perm_of_canonical_eq h)
  | .list t, a, b, hd, ha, hb, h => by
    have hitems := Json.array.inj h
    rw [Json.canonicalItems_eq_map, Json.canonicalItems_eq_map, List.map_map, List.map_map]
      at hitems
    exact eq_of_map_eq (fun x hx y hy => FieldType.itemJson_inj hd (List.all_eq_true.1 ha x hx)
      (List.all_eq_true.1 hb y hy)) hitems

/-- A record is told by its members, in whatever order. -/
theorem Fields.members_inj : ∀ {fs : Fields} {r s : fs.Record}, fs.distinct → fs.finite r →
    fs.finite s →
    (Json.canonicalMembers (fs.members r)).Perm (Json.canonicalMembers (fs.members s)) → r = s
  | .nil, _, _, _, _, _, _ => rfl
  | .cons name t rest, (slot, r), (slot', r'), hd, hr, hs, h => by
    simp only [Fields.distinct, Bool.and_eq_true, Bool.not_eq_true', List.contains_eq_mem,
      decide_eq_false_iff_not] at hd
    obtain ⟨⟨hname, ht⟩, hrest⟩ := hd
    obtain ⟨hslot, hr⟩ := Bool.and_eq_true_iff.1 hr
    obtain ⟨hslot', hr'⟩ := Bool.and_eq_true_iff.1 hs
    have hfirst := h.filter (·.1 = name)
    have hothers := h.filter (·.1 ≠ name)
    simp only [Fields.members] at hfirst hothers
    rw [(Fields.filter_members hname slot r).1, (Fields.filter_members hname slot' r').1] at hfirst
    rw [(Fields.filter_members hname slot r).2, (Fields.filter_members hname slot' r').2] at hothers
    have hshort : (Json.canonicalMembers (t.slotMember name slot)).length ≤ 1 := by
      rw [Json.canonicalMembers_eq_map, List.length_map]
      exact t.length_slotMember name slot
    have hsame := eq_of_perm_of_length_le_one hfirst hshort
    exact Prod.ext (FieldType.slotMember_inj (FieldType.itemJson_inj ht) hslot hslot' hsame)
      (Fields.members_inj hrest hr hr' hothers)

end

end VirtualPeople
