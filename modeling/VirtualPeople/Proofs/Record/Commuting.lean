import VirtualPeople.Proofs.Record.Lenses

/-!
# Writes to different scalars commute

Two scalars of a record may be written in either order, for the messages that are created on the way
to both are the same (`Path.set_comm`).
-/

namespace VirtualPeople

namespace Fields.At

theorem set_set : ∀ {fs : Fields} {t : FieldType} (a : fs.At t) (slot slot' : t.Slot)
    (r : fs.Record), a.set slot (a.set slot' r) = a.set slot r
  | _, _, .here, _, _, (_, _) => rfl
  | _, _, .there a, slot, slot', (first, rest) => congrArg (first, ·) (a.set_set slot slot' rest)

theorem set_comm : ∀ {fs : Fields} {t u : FieldType} (a : fs.At t) (b : fs.At u),
    (⟨t, a⟩ : (t : FieldType) × fs.At t) ≠ ⟨u, b⟩ → ∀ (slot : t.Slot) (slot' : u.Slot)
      (r : fs.Record), a.set slot (b.set slot' r) = b.set slot' (a.set slot r)
  | _, _, _, .here, .here, hne, _, _, _ => (hne rfl).elim
  | _, _, _, .here, .there _, _, _, _, (_, _) => rfl
  | _, _, _, .there _, .here, _, _, _, (_, _) => rfl
  | _, _, _, .there a, .there b, hne, slot, slot', (first, rest) =>
    congrArg (first, ·) (a.set_comm b (fun heq => hne (by cases heq; rfl)) slot slot' rest)

end Fields.At

namespace Path

variable {k l : ScalarKind}

/-- Writing changes the first field of a path, by what it held. -/
theorem exists_set_eq_head {fs : Fields} {t : FieldType} (p : Path fs t) (slot : t.Slot) :
    ∃ change : p.head.1.Slot → p.head.1.Slot,
      ∀ r, p.set slot r = p.head.2.set (change (p.head.2.get r)) r :=
  match p with
  | .field _ => ⟨fun _ => slot, fun _ => rfl⟩
  | @into _ gs _ _ _ p => ⟨fun held => some (p.set slot (held.getD gs.empty)), fun _ => rfl⟩

theorem set_comm_of_head_ne {fs : Fields} {t u : FieldType} (p : Path fs t) (q : Path fs u)
    (h : p.head ≠ q.head) (slot : t.Slot) (slot' : u.Slot) (r : fs.Record) :
    p.set slot (q.set slot' r) = q.set slot' (p.set slot r) := by
  obtain ⟨change, hp⟩ := p.exists_set_eq_head slot
  obtain ⟨change', hq⟩ := q.exists_set_eq_head slot'
  have hleft := (p.head.2.eq_or_apart q.head.2).resolve_left h
  have hright := (q.head.2.eq_or_apart p.head.2).resolve_left h.symm
  rw [hp, hq, hleft, hq, hp, hright]
  exact p.head.2.set_comm q.head.2 h _ _ r

/-- Two scalars may be written in either order. -/
theorem set_comm (v : Option k.Carrier) (w : Option l.Carrier) : ∀ {fs : Fields}
    (p : Path fs (.scalar k)) (q : Path fs (.scalar l)),
      (⟨.scalar k, p⟩ : (t : FieldType) × Path fs t) ≠ ⟨.scalar l, q⟩ →
      ∀ r : fs.Record, p.set v (q.set w r) = q.set w (p.set v r)
  | _, .field a, .field b, hne, r => by
    refine set_comm_of_head_ne (field a) (field b) (fun hhead => hne ?_) v w r
    cases hhead
    rfl
  | _, .field a, .into b q, _, r =>
    set_comm_of_head_ne (field a) (into b q) (fun hhead => nomatch congrArg Sigma.fst hhead) v w r
  | _, .into a p, .field b, _, r =>
    set_comm_of_head_ne (into a p) (field b) (fun hhead => nomatch congrArg Sigma.fst hhead) v w r
  | _, .into a p, .into b q, hne, r => by
    by_cases hhead : (into a p).head = (into b q).head
    · cases hhead
      have hrest := set_comm v w p q fun heq => hne (by cases heq; rfl)
      simp only [set, Fields.At.get_set, Fields.At.set_set, Option.getD_some, hrest]
    · exact set_comm_of_head_ne _ _ hhead v w r

end Path

/-- Two names lead to two paths. -/
theorem MessageType.path_ne {m : MessageType} {name other : String} {f g : ScalarField m.fields}
    (hf : m.field name = .ok (.scalar f)) (hg : m.field other = .ok (.scalar g))
    (hne : name ≠ other) :
    (⟨.scalar f.kind, f.path⟩ : (t : FieldType) × Path m.fields t) ≠ ⟨.scalar g.kind, g.path⟩ := by
  intro heq
  have hnames := congrArg (fun p : (t : FieldType) × Path m.fields t => p.2.names) heq
  refine hne (Text.split_inj (?_ : Text.split '.' name = Text.split '.' other))
  rw [← Path.names_of_find? (find?_of_scalar hf), ← Path.names_of_find? (find?_of_scalar hg)]
  exact hnames

end VirtualPeople
