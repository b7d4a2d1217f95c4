import VirtualPeople.Proofs.Json.Canonical
import VirtualPeople.Proofs.Number.Converting

/-!
# Decoding what was encoded

A decoder reads what is written for a value as that value, in whatever order the members of objects
stand (`Encodes`), and so does the reader of a field, of which there may be nothing to read
(`FieldEncodes`): a record reads its fields by their names (`Encodes.record`).
-/

namespace VirtualPeople

open Json

variable {α : Type}

/-- Changes the order of members in a value, and nothing else. -/
structure Rearranges (g : Json → Json) : Prop where
  leaf : ∀ {v}, v.depth = 0 → g v = v
  array : ∀ items, g (.array items) = .array (items.map g)
  object : ∀ members, ∃ ms, g (.object members) = .object ms ∧
    ms.Perm (members.map fun m => (m.1, g m.2))

theorem rearranges_id : Rearranges id :=
  ⟨fun _ => rfl, fun items => by rw [List.map_id]; rfl,
    fun members => ⟨members, rfl, by rw [List.map_id'']; exact fun _ => rfl⟩⟩

theorem rearranges_canonical : Rearranges canonical := by
  refine ⟨fun {v} hv => ?_, fun items => ?_, fun members => ?_⟩
  · cases v with
    | array items => cases hv
    | object members => cases hv
    | _ => rfl
  · rw [canonical, canonicalItems_eq_map]
  · rw [← canonicalMembers_eq_map]
    exact ⟨_, canonical_object members, sorted_perm _⟩

/-- The decoder reads `x` from `v` with its members in any order, if it is left the levels that `v`
takes; and `v` is not null and has no text without a value in it. -/
structure Encodes (d : Decoder α) (v : Json) (x : α) : Prop where
  readable : .unreadable ∉ v.parts
  ne_null : v ≠ .null
  reads : ∀ {g}, Rearranges g → ∀ n, v.depth ≤ n → d n (g v) = some x

/-- The reader of a field reads `x` from a value, or from there being none. -/
structure FieldEncodes (read : Nat → Option Json → Option α) (value : Option Json) (x : α) :
    Prop where
  readable : ∀ v ∈ value, .unreadable ∉ v.parts
  reads : ∀ {g}, Rearranges g → ∀ n, (∀ v ∈ value, v.depth ≤ n) → read n (value.map g) = some x

/-- The body of a record reads `x` from the values of its fields. -/
structure BodyEncodes (body : Nat → List (Option Json) → Option α) (values : List (Option Json))
    (x : α) : Prop where
  readable : ∀ value ∈ values, ∀ v ∈ value, .unreadable ∉ v.parts
  reads : ∀ {g}, Rearranges g → ∀ n, (∀ value ∈ values, ∀ v ∈ value, v.depth ≤ n) →
    body n (values.map (Option.map g)) = some x

namespace Encodes

theorem leaf {d : Decoder α} {v : Json} {x : α} (hparts : v.parts = [v])
    (hdepth : v.depth = 0) (hreadable : v ≠ .unreadable) (hnull : v ≠ .null)
    (hread : ∀ n, d n v = some x) : Encodes d v x := by
  refine ⟨fun hmem => ?_, hnull, fun hg n _ => ?_⟩
  · rw [hparts] at hmem
    exact hreadable (List.mem_singleton.1 hmem).symm
  · rw [hg.leaf hdepth, hread]

theorem map {β : Type} {d : Decoder α} {v : Json} {x : α} (f : α → β) (h : Encodes d v x) :
    Encodes (fun n v => (d n v).map f) v (f x) :=
  ⟨h.readable, h.ne_null, fun hg n hn => by rw [h.reads hg n hn, Option.map_some]⟩

theorem bool (b : Bool) : Encodes Decoder.bool (.bool b) b :=
  leaf rfl rfl nofun nofun fun _ => rfl

theorem string (s : String) : Encodes Decoder.string (.string s) s :=
  leaf rfl rfl nofun nofun fun _ => rfl

theorem oneOf {table : List (String × α)} {name : String} {x : α}
    (h : table.lookup name = some x) : Encodes (Decoder.oneOf table) (.string name) x :=
  leaf rfl rfl nofun nofun fun n => by
    cases n <;> exact h

theorem intIn {lo hi i : Int} (hlo : -9223372036854775808 ≤ lo) (hhi : hi < 18446744073709551616)
    (h : lo ≤ i ∧ i ≤ hi) : Encodes (Decoder.intIn lo hi) (.ofInt i) i := by
  have hfits : -9223372036854775808 ≤ i ∧ i < 18446744073709551616 :=
    ⟨hlo.trans h.1, h.2.trans_lt hhi⟩
  rw [ofInt, dif_pos hfits]
  exact leaf rfl rfl (by simp) (by simp) fun _ => if_pos h

theorem int32 (v : Int32) : Encodes Decoder.int32 (.ofInt v.toInt) v := by
  have hint : Encodes (Decoder.intIn (-2147483648) 2147483647) (.ofInt v.toInt) v.toInt :=
    intIn (by decide) (by decide) ⟨v.le_toInt, Int.le_of_lt_add_one v.toInt_lt⟩
  have hmap := hint.map Int32.ofInt
  rwa [Int32.ofInt_toInt] at hmap

theorem int64 (v : Int64) : Encodes Decoder.int64 (.ofInt v.toInt) v := by
  have hint : Encodes (Decoder.intIn (-9223372036854775808) 9223372036854775807)
      (.ofInt v.toInt) v.toInt :=
    intIn (by decide) (by decide) ⟨v.le_toInt, Int.le_of_lt_add_one v.toInt_lt⟩
  have hmap := hint.map Int64.ofInt
  rwa [Int64.ofInt_toInt] at hmap

theorem uint32 (v : UInt32) : Encodes Decoder.uint32 (.ofNat v.toNat) v := by
  have hlt := v.toNat_lt
  have hint : Encodes (Decoder.intIn 0 4294967295) (.ofInt v.toNat) (v.toNat : Int) :=
    intIn (by decide) (by decide) (by omega)
  have hmap := hint.map fun i => UInt32.ofNat i.toNat
  rwa [Int.toNat_natCast, UInt32.ofNat_toNat] at hmap

theorem uint64 (v : UInt64) : Encodes Decoder.uint64 (.ofNat v.toNat) v := by
  have hlt := v.toNat_lt
  have hint : Encodes (Decoder.intIn 0 18446744073709551615) (.ofInt v.toNat) (v.toNat : Int) :=
    intIn (by decide) (by decide) (by omega)
  have hmap := hint.map fun i => UInt64.ofNat i.toNat
  rwa [Int.toNat_natCast, UInt64.ofNat_toNat] at hmap

theorem double {x : Float} (h : isFinite x) : Encodes Decoder.double (.ofFloat x) x := by
  rw [ofFloat, dif_pos h]
  exact leaf rfl rfl (by simp) (by simp) fun _ => rfl

/-- A single is written as a double, from which it is rounded back. -/
theorem single {c : Float32} (h : isFinite (widen c)) :
    Encodes Decoder.single (.ofFloat (widen c)) c := by
  rw [ofFloat, dif_pos h]
  exact leaf rfl rfl (by simp) (by simp) fun _ => congrArg some (narrow_widen h)

end Encodes

namespace FieldEncodes

variable {d : Decoder α} {f : α → Json}

theorem given {v : Json} {x default : α} (h : Encodes d v x) :
    FieldEncodes (Decoder.orElse d default) (some v) x :=
  ⟨fun _ hv => Option.mem_some.1 hv ▸ h.readable, fun hg n hn => h.reads hg n (hn v rfl)⟩

theorem rearranged_ne_null {g : Json → Json} (hg : Rearranges g) {v : Json} (h : v ≠ .null) :
    g v ≠ .null := by
  cases v with
  | array items =>
    rw [hg.array]
    exact nofun
  | object members =>
    obtain ⟨ms, heq, -⟩ := hg.object members
    rw [heq]
    exact nofun
  | _ => rwa [hg.leaf rfl]

theorem optional {o : Option α} (h : ∀ x ∈ o, Encodes d (f x) x) :
    FieldEncodes (Decoder.optional d) (o.map f) o := by
  rcases o with _ | x
  · exact ⟨nofun, fun _ _ _ => rfl⟩
  · have hx := h x rfl
    refine ⟨fun _ hv => Option.mem_some.1 hv ▸ hx.readable, fun hg n hn => ?_⟩
    have hread := hx.reads hg n (hn (f x) rfl)
    have hnull := rearranged_ne_null hg hx.ne_null
    rw [Option.map_some, Option.map_some]
    unfold Decoder.optional
    split
    · rename_i heq
      cases heq
    · rename_i heq
      exact absurd (Option.some.inj heq) hnull
    · rename_i heq
      cases heq
      rw [hread]
      rfl

theorem string (o : Option String) :
    FieldEncodes (Decoder.optional Decoder.string) (o.map Json.string) o :=
  .optional fun s _ => .string s

theorem bool (o : Option Bool) : FieldEncodes (Decoder.optional Decoder.bool) (o.map Json.bool) o :=
  .optional fun b _ => .bool b

theorem uint32 (o : Option UInt32) :
    FieldEncodes (Decoder.optional Decoder.uint32) (o.map fun i => .ofNat i.toNat) o :=
  .optional fun i _ => .uint32 i

theorem double {o : Option Float} (h : o.all isFinite) :
    FieldEncodes (Decoder.optional Decoder.double) (o.map .ofFloat) o :=
  .optional fun x hx => .double ((Option.all_eq_true _ _).1 h x hx)

theorem single {o : Option Float32} (h : o.all fun c => isFinite (widen c)) :
    FieldEncodes (Decoder.optional Decoder.single) (o.map fun c => .ofFloat (widen c)) o :=
  .optional fun c hc => .single ((Option.all_eq_true _ _).1 h c hc)

end FieldEncodes

theorem le_itemsDepth : ∀ {items : List Json} {item : Json}, item ∈ items →
    item.depth ≤ itemsDepth items
  | first :: rest, item, h => by
    rcases List.mem_cons.1 h with rfl | h
    · exact Nat.le_max_left _ _
    · exact (le_itemsDepth h).trans (Nat.le_max_right _ _)

theorem depth_lt_of_mem {items : List Json} {item : Json} (h : item ∈ items) :
    item.depth < (Json.array items).depth :=
  Nat.lt_succ_of_le (le_itemsDepth h)

theorem all_map {g : Json → Option α} {f : α → Json} : ∀ {xs : List α},
    (∀ x ∈ xs, g (f x) = some x) → Decoder.all g (xs.map f) = some xs
  | [], _ => rfl
  | x :: xs, h => by
    rw [List.map_cons, Decoder.all, h x List.mem_cons_self,
      all_map fun y hy => h y (List.mem_cons_of_mem x hy)]

theorem Encodes.list {d : Decoder α} {f : α → Json} {xs : List α}
    (h : ∀ x ∈ xs, Encodes d (f x) x) : Encodes (Decoder.list d) (.array (xs.map f)) xs := by
  refine ⟨fun hmem => ?_, nofun, fun hg n hn => ?_⟩
  · rcases List.mem_cons.1 hmem with heq | hmem
    · cases heq
    · obtain ⟨item, hitem, hpart⟩ := mem_itemsParts.1 hmem
      obtain ⟨x, hx, rfl⟩ := List.mem_map.1 hitem
      exact (h x hx).readable hpart
  · rcases n with _ | n
    · exact absurd hn (Nat.not_succ_le_zero _)
    · rw [hg.array, List.map_map]
      refine all_map fun x hx => (h x hx).reads hg n ?_
      exact (le_itemsDepth (List.mem_map_of_mem hx)).trans (Nat.le_of_succ_le_succ hn)

theorem FieldEncodes.items {d : Decoder α} {f : α → Json} {xs : List α}
    (h : ∀ x ∈ xs, Encodes d (f x) x) :
    FieldEncodes (Decoder.orElse (Decoder.list d) []) (some (.array (xs.map f))) xs :=
  .given (.list h)

/-- A list that is left out when it is empty. -/
theorem FieldEncodes.list {d : Decoder α} {f : α → Json} {xs : List α}
    (h : ∀ x ∈ xs, Encodes d (f x) x) :
    FieldEncodes (Decoder.orElse (Decoder.list d) [])
      (if xs.isEmpty then none else some (.array (xs.map f))) xs := by
  rcases xs with _ | ⟨x, xs⟩
  · exact ⟨nofun, fun _ _ _ => rfl⟩
  · exact .items h

/-- The names of fields with the values that are there. -/
def membersOf : List String → List (Option Json) → List (String × Json)
  | name :: names, value :: values => member name value ++ membersOf names values
  | _, _ => []

theorem member_none (name : String) : member name none = [] := rfl

theorem member_some (name : String) (v : Json) : member name (some v) = [(name, v)] := rfl

theorem listMember_eq (name : String) (items : List Json) :
    listMember name items =
      member name (if items.isEmpty then none else some (.array items)) := by
  unfold listMember
  split_ifs <;> rfl

theorem map_fst_membersOf : ∀ (names : List String) (values : List (Option Json)),
    ((membersOf names values).map Prod.fst).Sublist names
  | [], _ => .slnil
  | _ :: _, [] => List.nil_sublist _
  | name :: names, none :: values => (map_fst_membersOf names values).cons name
  | name :: names, some _ :: values => (map_fst_membersOf names values).cons_cons name

theorem some_mem_of_mem_membersOf : ∀ {names : List String} {values : List (Option Json)}
    {m : String × Json}, m ∈ membersOf names values → some m.2 ∈ values
  | _ :: names, none :: values, m, h => List.mem_cons_of_mem _ (some_mem_of_mem_membersOf h)
  | name :: names, some v :: values, m, h => by
    rcases List.mem_cons.1 h with rfl | h
    · exact List.mem_cons_self
    · exact List.mem_cons_of_mem _ (some_mem_of_mem_membersOf h)

theorem mem_membersOf_of_some_mem : ∀ {names : List String} {values : List (Option Json)}
    {v : Json}, names.length = values.length → some v ∈ values →
    ∃ m ∈ membersOf names values, m.2 = v
  | [], [], _, _, h => by cases h
  | name :: names, value :: values, v, hlength, h => by
    rcases List.mem_cons.1 h with rfl | h
    · exact ⟨(name, v), List.mem_cons_self, rfl⟩
    · obtain ⟨m, hm, hv⟩ := mem_membersOf_of_some_mem (Nat.succ.inj hlength) h
      exact ⟨m, List.mem_append_right _ hm, hv⟩

/-- A member is looked up alike in every order if no name stands there twice. -/
theorem lookup_eq_some_iff {members : List (String × Json)} (h : (members.map Prod.fst).Nodup)
    {name : String} {v : Json} : members.lookup name = some v ↔ (name, v) ∈ members := by
  rw [List.lookup_eq_some_iff]
  constructor
  · rintro ⟨before, after, rfl, -⟩
    exact List.mem_append_right _ List.mem_cons_self
  · intro hmem
    obtain ⟨before, after, rfl⟩ := List.append_of_mem hmem
    refine ⟨before, after, rfl, fun p hp => bne_iff_ne.2 ?_⟩
    rintro rfl
    rw [List.map_append, List.nodup_append] at h
    exact h.2.2 p.1 (List.mem_map_of_mem hp) p.1 List.mem_cons_self rfl

theorem lookup_rearranged {g : Json → Json} {members ms : List (String × Json)}
    (h : (members.map Prod.fst).Nodup) (hperm : ms.Perm (members.map fun m => (m.1, g m.2)))
    (name : String) : ms.lookup name = (members.lookup name).map g := by
  have hnames : (ms.map Prod.fst).Nodup := by
    rw [(hperm.map Prod.fst).nodup_iff, List.map_map]
    exact h
  ext w
  rw [lookup_eq_some_iff hnames, hperm.mem_iff, Option.map_eq_some_iff]
  constructor
  · intro hw
    obtain ⟨m, hm, heq⟩ := List.mem_map.1 hw
    cases heq
    exact ⟨m.2, (lookup_eq_some_iff h).2 hm, rfl⟩
  · rintro ⟨v, hv, rfl⟩
    exact List.mem_map.2 ⟨(name, v), (lookup_eq_some_iff h).1 hv, rfl⟩

theorem lookup_membersOf_of_notMem {names : List String} {values : List (Option Json)}
    {name : String} (h : name ∉ names) : (membersOf names values).lookup name = none := by
  refine List.lookup_eq_none_iff.2 fun m hm => ?_
  have hmem := (map_fst_membersOf names values).subset (List.mem_map_of_mem hm)
  exact bne_iff_ne.2 fun heq => h (heq ▸ hmem)

/-- The members of the fields hold the values that are there. -/
theorem map_lookup_membersOf : ∀ {names : List String} {values : List (Option Json)},
    names.Nodup → names.length = values.length →
    names.map (fun name => (membersOf names values).lookup name) = values
  | [], [], _, _ => rfl
  | name :: names, value :: values, hnames, hlength => by
    obtain ⟨hname, hnames⟩ := List.nodup_cons.1 hnames
    have hfirst : (membersOf (name :: names) (value :: values)).lookup name = value := by
      rw [membersOf, List.lookup_append, lookup_membersOf_of_notMem hname, Option.or_none]
      rcases value with _ | v
      · rfl
      · exact List.lookup_cons_self
    have hothers : names.map (fun n => (membersOf (name :: names) (value :: values)).lookup n) =
        names.map (fun n => (membersOf names values).lookup n) := by
      refine List.map_congr_left fun n hn => ?_
      have hne : (n == name) = false := beq_false_of_ne (ne_of_mem_of_not_mem hn hname)
      rcases value with _ | v
      · rfl
      · rw [membersOf, member_some, List.lookup_append, List.lookup_cons, hne]
        rfl
    rw [List.map_cons, hfirst, hothers, map_lookup_membersOf hnames (Nat.succ.inj hlength)]

/-- Whatever the order of its members, an object has the fields of a record that were written. -/
theorem fieldValues_rearranged {g : Json → Json} (hg : Rearranges g) {names : List String}
    {values : List (Option Json)} (hnames : names.Nodup) (hlength : names.length = values.length) :
    Decoder.fieldValues names (g (Json.object (membersOf names values))) =
      some (values.map (Option.map g)) := by
  obtain ⟨ms, heq, hperm⟩ := hg.object (membersOf names values)
  have hdistinct := (map_fst_membersOf names values).nodup hnames
  have hcount : names.all fun name => ms.countP (·.1 == name) ≤ 1 := by
    refine List.all_eq_true.2 fun name _ => decide_eq_true ?_
    rw [hperm.countP_eq, List.countP_map]
    have hcount := List.nodup_iff_count_le_one.1 hdistinct name
    rwa [List.count, List.countP_map] at hcount
  rw [heq, Decoder.fieldValues, if_pos hcount]
  have hvalues := congrArg (List.map (Option.map g)) (map_lookup_membersOf hnames hlength)
  rw [List.map_map] at hvalues
  simp only [lookup_rearranged hdistinct hperm]
  exact congrArg some hvalues

theorem le_membersDepth : ∀ {members : List (String × Json)} {m : String × Json}, m ∈ members →
    m.2.depth ≤ membersDepth members
  | first :: rest, m, h => by
    rcases List.mem_cons.1 h with rfl | h
    · exact Nat.le_max_left _ _
    · exact (le_membersDepth h).trans (Nat.le_max_right _ _)

theorem depth_lt_of_some_mem {names : List String} {values : List (Option Json)} {v : Json}
    (hlength : names.length = values.length) (hv : some v ∈ values) :
    v.depth < (Json.object (membersOf names values)).depth := by
  obtain ⟨m, hm, rfl⟩ := mem_membersOf_of_some_mem hlength hv
  exact Nat.lt_succ_of_le (le_membersDepth hm)

/-- A record is read back if its body reads it from the values of its fields. -/
theorem Encodes.record {names : List String} {values : List (Option Json)}
    {body : Nat → List (Option Json) → Option α} {x : α} (hnames : names.Nodup)
    (hlength : names.length = values.length) (hbody : BodyEncodes body values x) :
    Encodes (Decoder.record names body) (.object (membersOf names values)) x := by
  refine ⟨fun hmem => ?_, nofun, fun hg n hn => ?_⟩
  · rcases List.mem_cons.1 hmem with heq | hmem
    · cases heq
    · obtain ⟨m, hm, hpart⟩ := mem_membersParts.1 hmem
      exact hbody.readable (some m.2) (some_mem_of_mem_membersOf hm) m.2 rfl hpart
  · rcases n with _ | n
    · exact absurd hn (Nat.not_succ_le_zero _)
    · rw [Decoder.record, fieldValues_rearranged hg hnames hlength, Option.bind_some]
      refine hbody.reads hg n ?_
      rintro _ hv v rfl
      exact Nat.le_of_lt_succ ((depth_lt_of_some_mem hlength hv).trans_le hn)

/-- A field that reads back. -/
structure ReadBack where
  {type : Type}
  {read : Nat → Option Json → Option type}
  {value : Option Json}
  {result : type}
  encodes : FieldEncodes read value result

/-- A record is read back if its body puts together what its fields are read as. -/
theorem Encodes.fields {names : List String} {body : Nat → List (Option Json) → Option α} {v : Json}
    {x : α} (fs : List ReadBack) (hnames : names.Nodup) (hlength : names.length = fs.length)
    (hv : v = .object (membersOf names (fs.map (·.value))))
    (hbody : ∀ (g : Json → Json) n, (∀ f ∈ fs, f.read n (f.value.map g) = some f.result) →
      body n (fs.map fun f => f.value.map g) = some x) :
    Encodes (Decoder.record names body) v x := by
  rw [hv]
  refine .record hnames (by rw [List.length_map, hlength]) ⟨?_, fun {g} hg n hdepth => ?_⟩
  · intro value hvalue
    obtain ⟨f, -, rfl⟩ := List.mem_map.1 hvalue
    exact f.encodes.readable
  · rw [List.map_map]
    exact hbody g n fun f hf => f.encodes.reads hg n (hdepth f.value (List.mem_map_of_mem hf))

end VirtualPeople
