import VirtualPeople.Json.Decoder
import VirtualPeople.Proofs.Json.Reading
import VirtualPeople.Proofs.Record.Codec
import VirtualPeople.Proofs.Text.ByteOrder
import VirtualPeople.Text.Literal

/-!
# The canonical form

Values that are the same but for the order of their members have one canonical text, and only they
do (`canonicalText_eq_iff`): sorting by name leaves no choice where names differ, and no two values
are written alike. The text has no blanks outside of strings (`isBlank_outside_write`), the names of
every object in it stand in the order of their bytes, and it is read as the sorted value
(`canonical_form`).
-/

namespace VirtualPeople

namespace Json

theorem mem_itemsParts {u : Json} : ∀ {items : List Json},
    u ∈ itemsParts items ↔ ∃ item ∈ items, u ∈ item.parts
  | [] => by simp [itemsParts]
  | item :: rest => by
    rw [itemsParts, List.mem_append, mem_itemsParts]
    simp

theorem mem_membersParts {u : Json} : ∀ {members : List (String × Json)},
    u ∈ membersParts members ↔ ∃ m ∈ members, u ∈ m.2.parts
  | [] => by simp [membersParts]
  | m :: rest => by
    rw [membersParts, List.mem_append, mem_membersParts]
    simp

/-- The members of an object in the order of their names. -/
def sorted (members : List (String × Json)) : List (String × Json) :=
  members.mergeSort fun a b => a.1 ≤ b.1

theorem canonical_object (members : List (String × Json)) :
    (object members).canonical = .object (sorted (canonicalMembers members)) := rfl

theorem sorted_perm (members : List (String × Json)) : (sorted members).Perm members :=
  List.mergeSort_perm _ _

mutual

/-- Every part of the canonical form is the canonical form of a part. -/
theorem exists_part : ∀ (v : Json) {u : Json}, u ∈ v.canonical.parts →
    ∃ p ∈ v.parts, p.canonical = u
  | .null, _, h | .bool _, _, h | .int _ _, _, h | .float _ _, _, h | .string _, _, h
  | .unreadable, _, h => ⟨_, mem_parts_self _, (List.mem_singleton.1 h).symm⟩
  | .array items, u, h => by
    rcases List.mem_cons.1 h with rfl | h
    · exact ⟨_, mem_parts_self _, rfl⟩
    · obtain ⟨p, hp, heq⟩ := exists_itemsPart items h
      exact ⟨p, List.mem_cons_of_mem _ hp, heq⟩
  | .object members, u, h => by
    rcases List.mem_cons.1 h with rfl | h
    · exact ⟨_, mem_parts_self _, rfl⟩
    · obtain ⟨m, hm, hu⟩ := mem_membersParts.1 h
      have hmem : u ∈ membersParts (canonicalMembers members) :=
        mem_membersParts.2 ⟨m, (sorted_perm _).mem_iff.1 hm, hu⟩
      obtain ⟨p, hp, heq⟩ := exists_membersPart members hmem
      exact ⟨p, List.mem_cons_of_mem _ hp, heq⟩

theorem exists_itemsPart : ∀ (items : List Json) {u : Json},
    u ∈ itemsParts (canonicalItems items) → ∃ p ∈ itemsParts items, p.canonical = u
  | item :: rest, u, h => by
    rcases List.mem_append.1 h with h | h
    · obtain ⟨p, hp, heq⟩ := exists_part item h
      exact ⟨p, List.mem_append_left _ hp, heq⟩
    · obtain ⟨p, hp, heq⟩ := exists_itemsPart rest h
      exact ⟨p, List.mem_append_right _ hp, heq⟩

theorem exists_membersPart : ∀ (members : List (String × Json)) {u : Json},
    u ∈ membersParts (canonicalMembers members) → ∃ p ∈ membersParts members, p.canonical = u
  | (_, value) :: rest, u, h => by
    rcases List.mem_append.1 h with h | h
    · obtain ⟨p, hp, heq⟩ := exists_part value h
      exact ⟨p, List.mem_append_left _ hp, heq⟩
    · obtain ⟨p, hp, heq⟩ := exists_membersPart rest h
      exact ⟨p, List.mem_append_right _ hp, heq⟩

end

theorem membersDepth_perm {ms ns : List (String × Json)} (h : ms.Perm ns) :
    membersDepth ms = membersDepth ns := by
  induction h with
  | nil => rfl
  | cons m _ ih => exact congrArg (max m.2.depth) ih
  | swap m n rest => exact Nat.max_left_comm n.2.depth m.2.depth (membersDepth rest)
  | trans _ _ ih ih' => exact ih.trans ih'

mutual

theorem depth_canonical : ∀ v : Json, v.canonical.depth = v.depth
  | .null | .bool _ | .int _ _ | .float _ _ | .string _ | .unreadable => rfl
  | .array items => by
    rw [canonical, depth, depth, itemsDepth_canonical items]
  | .object members => by
    rw [canonical_object, depth, depth, membersDepth_perm (sorted_perm _),
      membersDepth_canonical members]

theorem itemsDepth_canonical : ∀ items : List Json,
    itemsDepth (canonicalItems items) = itemsDepth items
  | [] => rfl
  | item :: rest => by
    rw [canonicalItems, itemsDepth, itemsDepth, depth_canonical item, itemsDepth_canonical rest]

theorem membersDepth_canonical : ∀ members : List (String × Json),
    membersDepth (canonicalMembers members) = membersDepth members
  | [] => rfl
  | (_, value) :: rest => by
    rw [canonicalMembers, membersDepth, membersDepth, depth_canonical value,
      membersDepth_canonical rest]

end

/-- No text without a value is in a value, and none of its objects has a name twice. -/
structure Proper (v : Json) : Prop where
  readable : .unreadable ∉ v.parts
  distinct : ∀ members, .object members ∈ v.parts → (members.map Prod.fst).Nodup

/-- The names of every object in a value stand in the order of their bytes, no two alike. -/
def Ordered (v : Json) : Prop :=
  ∀ members, .object members ∈ v.parts →
    (members.map fun m => Text.bytes m.1).Pairwise (· < ·)

theorem Proper.item {items : List Json} (h : (array items).Proper) {item : Json}
    (hitem : item ∈ items) : item.Proper := by
  have hparts : ∀ u ∈ item.parts, u ∈ (array items).parts :=
    fun u hu => List.mem_cons_of_mem _ (mem_itemsParts.2 ⟨item, hitem, hu⟩)
  exact ⟨fun hu => h.readable (hparts _ hu), fun ms hms => h.distinct ms (hparts _ hms)⟩

theorem Proper.member {members : List (String × Json)} (h : (object members).Proper)
    {m : String × Json} (hm : m ∈ members) : m.2.Proper := by
  have hparts : ∀ u ∈ m.2.parts, u ∈ (object members).parts :=
    fun u hu => List.mem_cons_of_mem _ (mem_membersParts.2 ⟨m, hm, hu⟩)
  exact ⟨fun hu => h.readable (hparts _ hu), fun ms hms => h.distinct ms (hparts _ hms)⟩

theorem map_fst_canonicalMembers (members : List (String × Json)) :
    (canonicalMembers members).map Prod.fst = members.map Prod.fst := by
  rw [canonicalMembers_eq_map, List.map_map]
  rfl

theorem pairwise_sorted (members : List (String × Json)) :
    (sorted members).Pairwise fun a b => a.1 ≤ b.1 := by
  have hsorted : (sorted members).Pairwise fun a b => decide (a.1 ≤ b.1) = true := by
    refine List.pairwise_mergeSort (fun a b c hab hbc => ?_) (fun a b => ?_) members
    · exact decide_eq_true (String.le_trans (of_decide_eq_true hab) (of_decide_eq_true hbc))
    · simpa using String.le_total a.1 b.1
  exact hsorted.imp of_decide_eq_true

theorem eq_of_fst_eq {members : List (String × Json)} (h : (members.map Prod.fst).Nodup)
    {m n : String × Json} (hm : m ∈ members) (hn : n ∈ members) (heq : m.1 = n.1) : m = n :=
  List.inj_on_of_nodup_map h hm hn heq

/-- Members that all have names of their own are sorted in one way. -/
theorem sorted_eq_of_perm {ms ns : List (String × Json)} (h : ms.Perm ns)
    (hdistinct : (ms.map Prod.fst).Nodup) : sorted ms = sorted ns := by
  refine List.Perm.eq_of_pairwise ?_ (pairwise_sorted ms) (pairwise_sorted ns)
    ((sorted_perm ms).trans (h.trans (sorted_perm ns).symm))
  intro m n hm hn hle hge
  have hn' : n ∈ ms := h.mem_iff.2 ((sorted_perm ns).mem_iff.1 hn)
  exact eq_of_fst_eq hdistinct ((sorted_perm ms).mem_iff.1 hm) hn' (String.le_antisymm hle hge)

theorem ordered_canonical {v : Json} (h : v.Proper) : v.canonical.Ordered := by
  intro members hmembers
  obtain ⟨p, hp, heq⟩ := exists_part v hmembers
  rcases p with _ | _ | _ | _ | _ | _ | ms | _
  case object =>
    obtain rfl : sorted (canonicalMembers ms) = members := object.inj heq
    have hdistinct : ((sorted (canonicalMembers ms)).map Prod.fst).Nodup := by
      refine ((sorted_perm _).map Prod.fst).nodup_iff.2 ?_
      rw [map_fst_canonicalMembers]
      exact h.distinct ms hp
    rw [List.pairwise_map]
    refine ((pairwise_sorted _).and (List.pairwise_map.1 hdistinct)).imp ?_
    rintro a b ⟨hle, hne⟩
    refine Text.bytes_lt_of_lt (Decidable.by_contra fun hge => ?_)
    exact hne (String.le_antisymm hle hge)
  all_goals cases heq

/-! ## The same value in another order -/

mutual

/-- The same value, but for the order of the members of the objects in it. -/
inductive Same : Json → Json → Prop
  | refl (v : Json) : Same v v
  | array {xs ys : List Json} : SameItems xs ys → Same (.array xs) (.array ys)
  | object {ms ns : List (String × Json)} : SameMembers ms ns → Same (.object ms) (.object ns)

/-- The same items, in their order. -/
inductive SameItems : List Json → List Json → Prop
  | nil : SameItems [] []
  | cons {x y : Json} {xs ys : List Json} : Same x y → SameItems xs ys →
      SameItems (x :: xs) (y :: ys)

/-- The same members, in any order. -/
inductive SameMembers : List (String × Json) → List (String × Json) → Prop
  | nil : SameMembers [] []
  | cons {name : String} {x y : Json} {ms before after : List (String × Json)} : Same x y →
      SameMembers ms (before ++ after) →
      SameMembers ((name, x) :: ms) (before ++ (name, y) :: after)

end

theorem canonicalMembers_append (ms ns : List (String × Json)) :
    canonicalMembers (ms ++ ns) = canonicalMembers ms ++ canonicalMembers ns := by
  simp only [canonicalMembers_eq_map, List.map_append]

mutual

theorem canonical_of_same : ∀ {v w : Json}, Same v w → v.Proper → v.canonical = w.canonical
  | _, _, .refl _, _ => rfl
  | .array xs, .array ys, .array h, hv => by
    rw [canonical, canonical, canonicalItems_of_same h fun x hx => hv.item hx]
  | .object ms, .object ns, .object h, hv => by
    have hperm := canonicalMembers_of_same h fun m hm => hv.member hm
    have hdistinct : ((canonicalMembers ms).map Prod.fst).Nodup := by
      rw [map_fst_canonicalMembers]
      exact hv.distinct ms (mem_parts_self _)
    rw [canonical_object, canonical_object, sorted_eq_of_perm hperm hdistinct]

theorem canonicalItems_of_same : ∀ {xs ys : List Json}, SameItems xs ys → (∀ x ∈ xs, x.Proper) →
    canonicalItems xs = canonicalItems ys
  | _, _, .nil, _ => rfl
  | _, _, .cons h hrest, hxs => by
    rw [canonicalItems, canonicalItems, canonical_of_same h (hxs _ List.mem_cons_self),
      canonicalItems_of_same hrest fun x hx => hxs x (List.mem_cons_of_mem _ hx)]

theorem canonicalMembers_of_same : ∀ {ms ns : List (String × Json)}, SameMembers ms ns →
    (∀ m ∈ ms, m.2.Proper) → (canonicalMembers ms).Perm (canonicalMembers ns)
  | _, _, .nil, _ => .nil
  | _, _, .cons h hrest, hms => by
    have hperm := canonicalMembers_of_same hrest fun m hm => hms m (List.mem_cons_of_mem _ hm)
    rw [canonicalMembers_append] at hperm
    rw [canonicalMembers_append, canonicalMembers, canonicalMembers,
      canonical_of_same h (hms _ List.mem_cons_self)]
    exact (hperm.cons _).trans List.perm_middle.symm

end

theorem sorted_sorted (members : List (String × Json)) : sorted (sorted members) = sorted members :=
  List.mergeSort_of_pairwise ((pairwise_sorted members).imp fun h => decide_eq_true h)

mutual

/-- The canonical form of a value is its own canonical form. -/
theorem canonical_canonical : ∀ v : Json, v.canonical.canonical = v.canonical
  | .null | .bool _ | .int _ _ | .float _ _ | .string _ | .unreadable => rfl
  | .array items => congrArg array (canonicalItems_canonicalItems items)
  | .object members => by
    have hfixed : canonicalMembers (sorted (canonicalMembers members)) =
        sorted (canonicalMembers members) := by
      rw [canonicalMembers_eq_map (sorted _)]
      refine (List.map_congr_left fun m hm => ?_).trans (List.map_id _)
      exact Prod.ext rfl (canonical_of_mem ((sorted_perm _).mem_iff.1 hm))
    rw [canonical_object, canonical_object, hfixed, sorted_sorted]

theorem canonicalItems_canonicalItems : ∀ items : List Json,
    canonicalItems (canonicalItems items) = canonicalItems items
  | [] => rfl
  | item :: rest => by
    rw [canonicalItems, canonicalItems, canonical_canonical item,
      canonicalItems_canonicalItems rest]

theorem canonical_of_mem : ∀ {members : List (String × Json)} {m : String × Json},
    m ∈ canonicalMembers members → m.2.canonical = m.2
  | (name, value) :: rest, m, h => by
    rcases List.mem_cons.1 h with rfl | h
    · exact canonical_canonical value
    · exact canonical_of_mem h

end

mutual

/-- Values of one canonical form are the same but for the order of their members. -/
theorem same_of_canonical : ∀ {v w : Json}, v.canonical = w.canonical → Same v w
  | .array xs, w, h => by
    rcases w with _ | _ | _ | _ | _ | ys | _ | _
    case array => exact .array (sameItems_of_canonical (array.inj h))
    all_goals cases h
  | .object ms, w, h => by
    rcases w with _ | _ | _ | _ | _ | _ | ns | _
    case object => exact .object (sameMembers_of_canonical (perm_of_canonical_eq h))
    all_goals cases h
  | .null, w, h | .bool _, w, h | .int _ _, w, h | .float _ _, w, h | .string _, w, h
  | .unreadable, w, h => by
    rcases w with _ | _ | _ | _ | _ | _ | _ | _ <;> first | cases h; exact .refl _ | cases h

theorem sameItems_of_canonical : ∀ {xs ys : List Json}, canonicalItems xs = canonicalItems ys →
    SameItems xs ys
  | [], [], _ => .nil
  | [], _ :: _, h => by cases h
  | _ :: _, [], h => by cases h
  | x :: xs, y :: ys, h =>
    .cons (same_of_canonical (List.cons.inj h).1) (sameItems_of_canonical (List.cons.inj h).2)

theorem sameMembers_of_canonical : ∀ {ms ns : List (String × Json)},
    (canonicalMembers ms).Perm (canonicalMembers ns) → SameMembers ms ns
  | [], ns, h => by
    have hnil := List.nil_perm.1 h
    rw [canonicalMembers_eq_map, List.map_eq_nil_iff] at hnil
    rw [hnil]
    exact .nil
  | (name, x) :: ms, ns, h => by
    have hmem : (name, x.canonical) ∈ canonicalMembers ns := h.mem_iff.1 List.mem_cons_self
    rw [canonicalMembers_eq_map] at hmem
    obtain ⟨⟨name', y⟩, hy, heq⟩ := List.mem_map.1 hmem
    obtain ⟨rfl, hcanonical⟩ := Prod.mk.inj heq
    obtain ⟨before, after, rfl⟩ := List.append_of_mem hy
    have hsame : Same x y := same_of_canonical hcanonical.symm
    refine .cons hsame (sameMembers_of_canonical ?_)
    rw [canonicalMembers_append, canonicalMembers, canonicalMembers, hcanonical] at h
    rw [canonicalMembers_append]
    exact (h.trans List.perm_middle).cons_inv

end

/-- Values have one canonical text just if they are the same but for the order of members. -/
theorem canonicalText_eq_iff {v w : Json} (h : v.Proper) :
    v.canonicalText = w.canonicalText ↔ Same v w :=
  ⟨fun htext => same_of_canonical (canonical_eq_of_canonicalText_eq htext),
    fun hsame => congrArg text (canonical_of_same hsame h)⟩

/-- The characters of a text that stand in no string. A string goes from quote to quote, and a
backslash in it takes the next character along. -/
def outside : (inString : Bool) → List Char → List Char
  | _, [] => []
  | false, '"' :: cs => outside true cs
  | false, c :: cs => c :: outside false cs
  | true, '\\' :: _ :: cs => outside true cs
  | true, '"' :: cs => outside false cs
  | true, _ :: cs => outside true cs

/-- A text that, before any other, leaves no string open and has no blank outside of strings. -/
def Tight (cs : List Char) : Prop :=
  ∀ rest, ∃ bare, outside false (cs ++ rest) = bare ++ outside false rest ∧
    ∀ c ∈ bare, Text.isBlank c = false

namespace Tight

theorem nil : Tight [] := fun _ => ⟨[], rfl, nofun⟩

theorem append {cs ds : List Char} (hc : Tight cs) (hd : Tight ds) : Tight (cs ++ ds) := by
  intro rest
  obtain ⟨bare, hbare, hblank⟩ := hc (ds ++ rest)
  obtain ⟨bare', hbare', hblank'⟩ := hd rest
  refine ⟨bare ++ bare', ?_, fun c hmem => ?_⟩
  · rw [List.append_assoc, hbare, hbare', List.append_assoc]
  · rcases List.mem_append.1 hmem with hmem | hmem
    · exact hblank c hmem
    · exact hblank' c hmem

theorem single {c : Char} (hquote : c ≠ '"') (hblank : Text.isBlank c = false) : Tight [c] := by
  intro rest
  refine ⟨[c], ?_, by simpa using hblank⟩
  rw [List.singleton_append, outside]
  · rfl
  · exact fun h => hquote h

theorem cons {c : Char} {cs : List Char} (hquote : c ≠ '"') (hblank : Text.isBlank c = false)
    (h : Tight cs) : Tight (c :: cs) :=
  (single hquote hblank).append h

theorem ofAll : ∀ {cs : List Char}, (∀ c ∈ cs, c ≠ '"' ∧ Text.isBlank c = false) → Tight cs
  | [], _ => nil
  | c :: _, h => cons (h c List.mem_cons_self).1 (h c List.mem_cons_self).2
      (ofAll fun d hd => h d (List.mem_cons_of_mem c hd))

theorem word {cs : List Char} (h : cs.all fun c => c != '"' && !Text.isBlank c) : Tight cs :=
  ofAll fun c hc => by simpa using List.all_eq_true.1 h c hc

end Tight

theorem outside_plain {c : Char} (hquote : c ≠ '"') (hslash : c ≠ '\\') (rest : List Char) :
    outside true (c :: rest) = outside true rest := by
  rw [outside]
  · exact fun _ _ h => absurd h hslash
  · exact fun h => absurd h hquote

theorem hexDigit_plain : ∀ d < 16, hexDigit d ≠ '"' ∧ hexDigit d ≠ '\\' := by
  decide

theorem outside_escape (c : Char) (rest : List Char) :
    outside true (escape c ++ rest) = outside true rest := by
  unfold escape
  split_ifs with hquote hslash hb ht hn hf hr hcontrol
  all_goals try rfl
  · obtain ⟨hquote, hslash⟩ := hexDigit_plain (c.toNat / 16) (by omega)
    obtain ⟨hquote', hslash'⟩ := hexDigit_plain (c.toNat % 16) (by omega)
    calc outside true ('\\' :: 'u' :: '0' :: '0' :: hexDigit (c.toNat / 16) ::
          hexDigit (c.toNat % 16) :: rest)
        = outside true (hexDigit (c.toNat / 16) :: hexDigit (c.toNat % 16) :: rest) := rfl
      _ = outside true rest := by
          rw [outside_plain hquote hslash, outside_plain hquote' hslash']
  · exact outside_plain hquote hslash rest

theorem tight_quoted (a : String) : Tight (quoted a) := by
  intro rest
  refine ⟨[], ?_, nofun⟩
  have hbody : ∀ cs : List Char, outside true (cs.flatMap escape ++ '"' :: rest) =
      outside false rest := by
    intro cs
    induction cs with
    | nil => rfl
    | cons c cs ih => rw [List.flatMap_cons, List.append_assoc, outside_escape, ih]
  rw [quoted_append, outside, hbody]
  rfl

theorem isBlank_of_isNumberChar {c : Char} (h : isNumberChar c) : Text.isBlank c = false := by
  have hrange : 0x2b ≤ c.toNat ∧ c.toNat ≤ 0x65 := by
    simp only [isNumberChar, Bool.or_eq_true, decide_eq_true_eq, Char.isDigit_iff_toNat] at h
    rcases h with (((h | rfl) | rfl) | rfl) | rfl
    · have hzero : '0'.toNat = 0x30 := rfl
      have hnine : '9'.toNat = 0x39 := rfl
      omega
    all_goals decide
  simp only [Text.isBlank, Text.blankRanges, List.any_cons, List.any_nil, Bool.or_false,
    Bool.or_eq_false_iff, Bool.and_eq_false_iff, decide_eq_false_iff_not]
  omega

theorem tight_number {cs : List Char} (h : ∀ c ∈ cs, isNumberChar c) : Tight cs := by
  refine .ofAll fun c hc => ⟨?_, isBlank_of_isNumberChar (h c hc)⟩
  rintro rfl
  cases h _ hc

mutual

theorem tight_write : ∀ v : Json, Tight v.write
  | .null => .word rfl
  | .bool true => .word rfl
  | .bool false => .word rfl
  | .int i fits => tight_number (mem_write_number rfl)
  | .float x finite => tight_number (mem_write_number rfl)
  | .string a => tight_quoted a
  | .unreadable => fun rest => ⟨[], rfl, nofun⟩
  | .array items =>
    .cons (by decide) (by decide) ((tight_items items).append (.single (by decide) (by decide)))
  | .object members =>
    .cons (by decide) (by decide) ((tight_members members).append (.single (by decide) (by decide)))

theorem tight_items : ∀ items : List Json, Tight (joined [','] (writeItems items))
  | [] => .nil
  | [item] => tight_write item
  | item :: next :: more =>
    (tight_write item).append (.cons (by decide) (by decide) (tight_items (next :: more)))

theorem tight_members : ∀ members : List (String × Json),
    Tight (joined [','] (writeMembers members))
  | [] => .nil
  | [(name, value)] =>
    (tight_quoted name).append (.cons (by decide) (by decide) (tight_write value))
  | (name, value) :: next :: more =>
    ((tight_quoted name).append (.cons (by decide) (by decide) (tight_write value))).append
      (.cons (by decide) (by decide) (tight_members (next :: more)))

end

/-- Compact text has no blanks outside of strings. -/
theorem isBlank_outside_write (v : Json) : ∀ c ∈ outside false v.write, Text.isBlank c = false := by
  obtain ⟨bare, hbare, hblank⟩ := tight_write v []
  rw [List.append_nil, outside, List.append_nil] at hbare
  rw [hbare]
  exact hblank

/-! ## Reading the canonical text -/

def isReadable : Json → Bool
  | .unreadable => false
  | _ => true

theorem isReadable_of_ne : ∀ {v : Json}, v ≠ .unreadable → v.isReadable
  | .unreadable, h => absurd rfl h
  | .null, _ | .bool _, _ | .int _ _, _ | .float _ _, _ | .string _, _ | .array _, _
  | .object _, _ => rfl

/-- Every double in a value is read from its own text. -/
def DoublesReadBack (v : Json) : Prop :=
  ∀ x finite, .float x finite ∈ v.parts → ReadsBack (.float x finite)

/-- Whether a value is read from its own text if it is a double. -/
def isReadBack : Json → Bool
  | .float x finite =>
    match read? (text (.float x finite)) with
    | some (.float y _) => y = x
    | _ => false
  | _ => true

theorem isReadBack_iff (x : Float) (finite : isFinite x = true) :
    (float x finite).isReadBack ↔ ReadsBack (.float x finite) := by
  rw [isReadBack, ReadsBack]
  split
  · rename_i y _ hread
    rw [hread, decide_eq_true_iff, Option.some.injEq, float.injEq]
  · rename_i hread
    exact iff_of_false Bool.false_ne_true (hread x finite)

instance (v : Json) : Decidable v.DoublesReadBack :=
  decidable_of_iff (v.parts.all isReadBack) <| by
    rw [List.all_eq_true]
    constructor
    · intro h x finite hx
      exact (isReadBack_iff x finite).1 (h _ hx)
    · intro h u hu
      rcases u with _ | _ | _ | ⟨x, finite⟩ | _ | _ | _ | _
      case float => exact (isReadBack_iff x finite).2 (h x finite hu)
      all_goals rfl

/-- Not every double is: digits times a power of ten may round to a neighbour. -/
example : ¬ DoublesReadBack (.float 0.23491288199912486 rfl) := by decide +kernel

theorem legible_canonical {v : Json} (hreadable : .unreadable ∉ v.parts)
    (hdoubles : v.DoublesReadBack) : ∀ u ∈ v.canonical.parts, u.Legible := by
  intro u hu
  obtain ⟨p, hp, rfl⟩ := exists_part v hu
  rcases p with _ | _ | _ | ⟨x, finite⟩ | _ | _ | _ | _
  case float => exact hdoubles x finite hp
  case unreadable => exact absurd hp hreadable
  all_goals trivial

/-- The canonical text of a value is read as its canonical form. -/
theorem read_canonicalText {v : Json} (hreadable : .unreadable ∉ v.parts)
    (hdoubles : v.DoublesReadBack) : read? v.canonicalText = some v.canonical :=
  read_text (legible_canonical hreadable hdoubles)

end Json

/-- Reads any value that has no text without a value in it. -/
def Decoder.any : Decoder Json := fun n v =>
  if v.depth ≤ n ∧ v.parts.all Json.isReadable then some v else none

namespace Json

/-- The canonical text of a value has no blanks outside of strings. It is the text of a value with
the names of every object in the order of their bytes, which is the same value but for the order of
members, and which is read from the text if it is not nested too deep and its doubles are read back.
Two values have one canonical text just if they are the same but for the order of members. -/
theorem canonical_form (v w : Json) (h : v.Proper) :
    (∀ c ∈ outside false v.canonicalText.toList, Text.isBlank c = false) ∧
    (∃ u, v.canonicalText = u.text ∧ u.Ordered ∧ Same u v ∧
      (v.depth ≤ nestingLimit → v.DoublesReadBack →
        Decoder.any.readText v.canonicalText = some u)) ∧
    (v.canonicalText = w.canonicalText ↔ Same v w) := by
  refine ⟨?_, ⟨v.canonical, rfl, ordered_canonical h, same_of_canonical (canonical_canonical v),
    fun hdepth hdoubles => ?_⟩, canonicalText_eq_iff h⟩
  · rw [canonicalText, text, String.toList_ofList]
    exact isBlank_outside_write v.canonical
  · have hreadable : v.canonical.parts.all isReadable := by
      refine List.all_eq_true.2 fun u hu => isReadable_of_ne ?_
      rintro rfl
      exact legible_canonical h.readable hdoubles _ hu
    rw [Decoder.readText, read_canonicalText h.readable hdoubles]
    exact if_pos ⟨(depth_canonical v).le.trans hdepth, hreadable⟩

/-- An object with an array and an object in it, and a name that starts like another. -/
def nested : Json :=
  .object [("b", .array [.int 1 (by decide), .float 0.5 rfl, .string "x y"]), ("aé", .null),
    ("a", .object [("d", .bool true)])]

/-- The members in another order. -/
def nestedReordered : Json :=
  .object [("a", .object [("d", .bool true)]), ("aé", .null),
    ("b", .array [.int 1 (by decide), .float 0.5 rfl, .string "x y"])]

theorem canonical_form_nested :
    nested.Proper ∧ nested.depth ≤ nestingLimit ∧ nested.DoublesReadBack ∧
    (∀ c ∈ outside false nested.canonicalText.toList, Text.isBlank c = false) ∧
    (∃ u, nested.canonicalText = u.text ∧ u.Ordered ∧ Same u nested ∧
      Decoder.any.readText nested.canonicalText = some u) ∧
    (nested.canonicalText = nestedReordered.canonicalText ↔ Same nested nestedReordered) := by
  have hproper : nested.Proper := by
    constructor
    · simp [nested, parts, membersParts, itemsParts]
    · intro members hmembers
      simp only [nested, parts, membersParts, itemsParts, List.cons_append, List.nil_append,
        List.append_nil, List.mem_cons, object.injEq, reduceCtorEq, false_or, or_false,
        List.not_mem_nil] at hmembers
      rcases hmembers with rfl | rfl <;> decide
  have hdepth : nested.depth ≤ nestingLimit := by decide
  have hdoubles : nested.DoublesReadBack := by decide +kernel
  obtain ⟨hblank, ⟨u, htext, hordered, hsame, hread⟩, hiff⟩ :=
    canonical_form nested nestedReordered hproper
  exact ⟨hproper, hdepth, hdoubles, hblank, ⟨u, htext, hordered, hsame, hread hdepth hdoubles⟩,
    hiff⟩

end Json

end VirtualPeople
