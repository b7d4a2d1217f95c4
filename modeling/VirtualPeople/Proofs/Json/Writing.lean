import VirtualPeople.Json.Reader
import VirtualPeople.Json.Writer
import VirtualPeople.Proofs.Number.Layout
import Mathlib.Tactic.SplitIfs

/-!
# JSON text is unambiguous

No two values are written alike (`write_inj`). The first character of a text tells the shape of its
value (`exists_lead`), a string is told by reading it back (`stringBody_flatMap_escape`), and a
number goes as far as there are characters of numbers (`number_inj`). What follows a value in a text
starts with no such character, so that the text of a value ends where the next part starts.
-/

namespace VirtualPeople.Json

theorem hexValue_hexDigit : ∀ d < 16, hexValue? (hexDigit d) = some d := by
  decide

/-- An escaped character is read back. -/
theorem stringBody_escape (c : Char) (seen rest : List Char) :
    stringBody true none seen (escape c ++ rest) = stringBody true none (c :: seen) rest := by
  unfold escape
  split_ifs with hquote hslash hb ht hn hf hr hcontrol
  · rw [hquote]; rfl
  · rw [hslash]; rfl
  · rw [hb]; rfl
  · rw [ht]; rfl
  · rw [hn]; rfl
  · rw [hf]; rfl
  · rw [hr]; rfl
  · have hfour : hexFour? '0' '0' (hexDigit (c.toNat / 16)) (hexDigit (c.toNat % 16)) =
        some c.toNat := by
      have hzero : hexValue? '0' = some 0 := rfl
      have hvalue : c.toNat / 16 * 16 + c.toNat % 16 = c.toNat := Nat.div_add_mod' c.toNat 16
      simp only [hexFour?, hzero, hexValue_hexDigit _ (by omega : c.toNat / 16 < 16),
        hexValue_hexDigit _ (by omega : c.toNat % 16 < 16), Option.bind_eq_bind, Option.bind_some,
        Option.pure_def, Nat.zero_mul, Nat.zero_add, hvalue]
    have hpair : pair? none c.toNat = none := rfl
    simp only [List.cons_append, List.nil_append]
    rw [stringBody, hfour]
    simp only [hpair]
    rw [if_neg (by omega), if_neg (by omega), Char.ofNat_toNat]
    rfl
  · rw [List.singleton_append, stringBody.eq_def]
    split
    · rename_i h
      cases h
      exact absurd rfl hquote
    · rename_i h
      cases h
      exact absurd rfl hslash
    · rename_i h
      cases h
      exact absurd rfl hslash
    · rename_i h
      cases h
      rw [if_neg hcontrol]
      rfl
    · rename_i h
      cases h

theorem stringBody_flatMap_escape (text : List Char) (seen rest : List Char) :
    stringBody true none seen (text.flatMap escape ++ '"' :: rest) =
      some (true, seen.reverse ++ text, rest) := by
  induction text generalizing seen with
  | nil => rw [List.append_nil]; rfl
  | cons c cs ih =>
    rw [List.flatMap_cons, List.append_assoc, stringBody_escape, ih, List.reverse_cons,
      List.append_assoc]
    rfl

theorem quoted_append (text : String) (rest : List Char) :
    quoted text ++ rest = '"' :: (text.toList.flatMap escape ++ '"' :: rest) := by
  rw [quoted, List.cons_append, List.append_assoc]
  rfl

theorem quoted_inj {a b : String} {s t : List Char} (h : quoted a ++ s = quoted b ++ t) :
    a = b ∧ s = t := by
  rw [quoted_append, quoted_append] at h
  have hread := congrArg (stringBody true none []) (List.cons.inj h).2
  rw [stringBody_flatMap_escape, stringBody_flatMap_escape] at hread
  simp only [Option.some.injEq, Prod.mk.injEq, true_and, List.reverse_nil, List.nil_append] at hread
  exact ⟨String.toList_inj.1 hread.1, hread.2⟩

/-- No string is written like the text that has no value. -/
theorem quoted_ne_unreadable (a : String) (s t : List Char) :
    quoted a ++ s ≠ leafText .unreadable ++ t := by
  intro h
  have hwritten : leafText .unreadable ++ t =
      '"' :: '\\' :: 'u' :: 'd' :: '8' :: '0' :: '0' :: '"' :: t := rfl
  rw [quoted_append, hwritten] at h
  have hread := congrArg (stringBody true none []) (List.cons.inj h).2
  have hhalf : stringBody true none [] ('\\' :: 'u' :: 'd' :: '8' :: '0' :: '0' :: '"' :: t) =
      some (false, [], t) := rfl
  rw [stringBody_flatMap_escape, hhalf] at hread
  cases hread

def isNumberChar (c : Char) : Bool := c.isDigit || c = '-' || c = '+' || c = '.' || c = 'e'

/-- A text that does not go on like a number. -/
def Parted (rest : List Char) : Prop := rest.takeWhile isNumberChar = []

def isNumber : Json → Bool
  | .int _ _ => true
  | .float _ _ => true
  | _ => false

theorem append_inj_of_parted {cs ds s t : List Char} (hc : ∀ c ∈ cs, isNumberChar c)
    (hd : ∀ d ∈ ds, isNumberChar d) (hs : Parted s) (ht : Parted t) (h : cs ++ s = ds ++ t) :
    cs = ds ∧ s = t := by
  have htake := congrArg (List.takeWhile isNumberChar) h
  rw [List.takeWhile_append_of_pos hc, List.takeWhile_append_of_pos hd, hs, ht, List.append_nil,
    List.append_nil] at htake
  rw [htake] at h
  exact ⟨htake, List.append_cancel_left h⟩

theorem mem_integerText {i : Int} {c : Char} (h : c ∈ Text.integerText i) :
    c.isDigit ∨ c = '-' := by
  rcases i with n | n
  · exact .inl (isDigits_digitChars n c h)
  · rcases List.mem_cons.1 h with rfl | h
    · exact .inr rfl
    · exact .inl (isDigits_digitChars _ c h)

theorem isNumberChar_of_isDigit {c : Char} (h : c.isDigit) : isNumberChar c := by
  simp [isNumberChar, h]

theorem mem_numeral {n : Numeral} (h : n.Proper) {c : Char} (hc : c ∈ n.chars) :
    isNumberChar c := by
  rcases List.mem_append.1 hc with hc | hc
  · exact isNumberChar_of_isDigit (h.whole c hc)
  rcases List.mem_append.1 hc with hc | hc
  · split_ifs at hc
    · cases hc
    · rcases List.mem_cons.1 hc with rfl | hc
      · rfl
      · exact isNumberChar_of_isDigit (h.places c hc)
  · rcases he : n.exponent with _ | e
    · rw [he] at hc
      cases hc
    · rw [he, Option.map_some, Option.getD_some] at hc
      rcases List.mem_cons.1 hc with rfl | hc
      · rfl
      · rcases List.mem_cons.1 hc with rfl | hc
        · split_ifs <;> rfl
        · exact isNumberChar_of_isDigit (isDigits_digitChars _ c hc)

theorem marked_numeral {n : Numeral} (h : n.Proper) : '.' ∈ n.chars ∨ 'e' ∈ n.chars := by
  rcases h.marked with hplaces | hexponent
  · left
    simp [Numeral.chars, hplaces]
  · right
    obtain ⟨e, he⟩ := Option.isSome_iff_exists.1 hexponent
    simp [Numeral.chars, he, exponentChars]

theorem exists_signedText (x : Float) :
    ∃ n : Numeral, n.Proper ∧ jsonNumberText x = signedText (isNegative x) n.chars := by
  obtain ⟨n, hproper, hchars, -⟩ :=
    exists_numeral (if rankOf x = 0 then ⟨0, 0⟩ else Format.double.shortest .even (rankOf x))
  exact ⟨n, hproper, congrArg (signedText (isNegative x)) hchars⟩

theorem mem_jsonNumberText {x : Float} {c : Char} (h : c ∈ jsonNumberText x) : isNumberChar c := by
  obtain ⟨n, hproper, hchars⟩ := exists_signedText x
  rw [hchars, signedText] at h
  split_ifs at h
  · rcases List.mem_cons.1 h with rfl | h
    · rfl
    · exact mem_numeral hproper h
  · exact mem_numeral hproper h

/-- A double is written with a point or an exponent. -/
theorem marked_jsonNumberText (x : Float) : '.' ∈ jsonNumberText x ∨ 'e' ∈ jsonNumberText x := by
  obtain ⟨n, hproper, hchars⟩ := exists_signedText x
  rw [hchars, signedText]
  split_ifs
  · exact (marked_numeral hproper).imp (List.mem_cons_of_mem _) (List.mem_cons_of_mem _)
  · exact marked_numeral hproper

theorem integerText_ne_jsonNumberText (i : Int) (x : Float) :
    Text.integerText i ≠ jsonNumberText x := by
  intro h
  rcases marked_jsonNumberText x with hmark | hmark
  · rw [← h] at hmark
    exact absurd (mem_integerText hmark) (by decide)
  · rw [← h] at hmark
    exact absurd (mem_integerText hmark) (by decide)

theorem integerText_inj {i j : Int} (h : Text.integerText i = Text.integerText j) : i = j := by
  have hread := integer_integerText i
  rw [h, integer_integerText] at hread
  exact (Option.some.inj hread).symm

theorem jsonNumberText_inj {x y : Float} (hx : isFinite x) (hy : isFinite y)
    (h : jsonNumberText x = jsonNumberText y) : x = y := by
  have hread := double_jsonNumberText hx
  rw [h, double_jsonNumberText hy] at hread
  exact (Option.some.inj hread).symm

theorem mem_write_number {v : Json} (h : v.isNumber) : ∀ c ∈ v.write, isNumberChar c := by
  rcases v with _ | _ | ⟨i, fits⟩ | ⟨x, finite⟩
  case int =>
    intro c hc
    rcases mem_integerText hc with hdigit | rfl
    · exact isNumberChar_of_isDigit hdigit
    · rfl
  case float => exact fun c hc => mem_jsonNumberText hc
  all_goals cases h

theorem number_inj {v w : Json} {s t : List Char} (hv : v.isNumber) (hw : w.isNumber)
    (hs : Parted s) (ht : Parted t) (h : v.write ++ s = w.write ++ t) : v = w ∧ s = t := by
  obtain ⟨htext, hrest⟩ :=
    append_inj_of_parted (mem_write_number hv) (mem_write_number hw) hs ht h
  refine ⟨?_, hrest⟩
  rcases v with _ | _ | ⟨i, fits⟩ | ⟨x, finite⟩
  case int =>
    rcases w with _ | _ | ⟨j, fits'⟩ | ⟨y, finite'⟩
    case int =>
      cases integerText_inj htext
      rfl
    case float => exact absurd htext (integerText_ne_jsonNumberText i y)
    all_goals cases hw
  case float =>
    rcases w with _ | _ | ⟨j, fits'⟩ | ⟨y, finite'⟩
    case int => exact absurd htext.symm (integerText_ne_jsonNumberText j x)
    case float =>
      cases jsonNumberText_inj finite finite' htext
      rfl
    all_goals cases hw
  all_goals cases hv

/-- What the first character of a text tells of its value. -/
def lead (c : Char) : Nat :=
  if c = 'n' then 0 else if c = 't' then 1 else if c = 'f' then 2 else if c = '"' then 3
  else if c = '[' then 4 else if c = '\x7b' then 5 else if isNumberChar c then 6 else 7

def shape : Json → Nat
  | .null => 0
  | .bool b => if b then 1 else 2
  | .string _ => 3
  | .unreadable => 3
  | .array _ => 4
  | .object _ => 5
  | .int _ _ => 6
  | .float _ _ => 6

theorem lead_of_isNumberChar {c : Char} (h : isNumberChar c) : lead c = 6 := by
  unfold lead
  split_ifs with hn ht hf hq ha ho
  · cases hn
    cases h
  · cases ht
    cases h
  · cases hf
    cases h
  · cases hq
    cases h
  · cases ha
    cases h
  · cases ho
    cases h
  · rfl

theorem exists_lead_number {v : Json} (h : v.isNumber) (hne : v.write ≠ []) :
    ∃ c cs, v.write = c :: cs ∧ lead c = 6 := by
  obtain ⟨c, cs, hcons⟩ := List.exists_cons_of_ne_nil hne
  have hmem : c ∈ v.write := by
    rw [hcons]
    exact List.mem_cons_self
  exact ⟨c, cs, hcons, lead_of_isNumberChar (mem_write_number h c hmem)⟩

theorem exists_lead : ∀ v : Json, ∃ c cs, v.write = c :: cs ∧ lead c = v.shape
  | .null => ⟨_, _, rfl, rfl⟩
  | .bool true => ⟨_, _, rfl, rfl⟩
  | .bool false => ⟨_, _, rfl, rfl⟩
  | .string _ => ⟨_, _, rfl, rfl⟩
  | .unreadable => ⟨_, _, rfl, rfl⟩
  | .array _ => ⟨_, _, rfl, rfl⟩
  | .object _ => ⟨_, _, rfl, rfl⟩
  | .int i fits => by
    have hne : write (.int i fits) ≠ [] := by
      rcases i with n | n
      · exact digitChars_ne_nil n
      · exact List.cons_ne_nil _ _
    exact exists_lead_number rfl hne
  | .float x finite => by
    have hne : write (.float x finite) ≠ [] := by
      rcases marked_jsonNumberText x with hmark | hmark
      · exact List.ne_nil_of_mem hmark
      · exact List.ne_nil_of_mem hmark
    exact exists_lead_number rfl hne

theorem shape_eq {v w : Json} {s t : List Char} (h : v.write ++ s = w.write ++ t) :
    v.shape = w.shape := by
  obtain ⟨c, cs, hv, hlead⟩ := exists_lead v
  obtain ⟨d, ds, hw, hlead'⟩ := exists_lead w
  rw [hv, hw, List.cons_append, List.cons_append] at h
  rw [← hlead, ← hlead', (List.cons.inj h).1]

theorem write_ne_cons {v : Json} {s t : List Char} {c : Char} (hc : lead c = 7) :
    v.write ++ s ≠ c :: t := by
  obtain ⟨d, ds, hv, hlead⟩ := exists_lead v
  intro h
  rw [hv] at h
  rw [← (List.cons.inj h).1, hlead] at hc
  rcases v with _ | b | _ | _ | _ | _ | _ | _
  case bool => cases b <;> cases hc
  all_goals cases hc

theorem joined_cons (text : List Char) (texts : List (List Char)) :
    joined [','] (text :: texts) = text ++ texts.flatMap (',' :: ·) := by
  induction texts generalizing text with
  | nil => simp [joined]
  | cons next texts ih =>
    rw [List.flatMap_cons, joined, ih]
    · rfl
    · exact nofun

theorem parted_flatMap (texts : List (List Char)) {closing : Char} (s : List Char)
    (h : isNumberChar closing = false) : Parted (texts.flatMap (',' :: ·) ++ closing :: s) := by
  rcases texts with _ | ⟨text, texts⟩
  · exact List.takeWhile_cons_of_neg (by simp [h])
  · rfl

theorem isNumber_of_shape : ∀ {v : Json}, v.shape = 6 → v.isNumber
  | .int _ _, _ => rfl
  | .float _ _, _ => rfl
  | .bool true, h => by cases h
  | .bool false, h => by cases h

theorem leaf_inj {v w : Json} {s t : List Char} (hv : v.shape ≠ 4 ∧ v.shape ≠ 5) (hs : Parted s)
    (ht : Parted t) (h : v.write ++ s = w.write ++ t) : v = w ∧ s = t := by
  have hshape := shape_eq h
  rcases v with _ | b | ⟨i, fits⟩ | ⟨x, finite⟩ | a | _ | _ | _
  case null =>
    rcases w with _ | c | _ | _ | _ | _ | _ | _
    case null => exact ⟨rfl, List.append_cancel_left h⟩
    case bool => cases c <;> cases hshape
    all_goals cases hshape
  case bool =>
    rcases w with _ | c | _ | _ | _ | _ | _ | _
    case bool =>
      obtain rfl : b = c := by
        cases b <;> cases c <;> first | rfl | cases hshape
      exact ⟨rfl, List.append_cancel_left h⟩
    all_goals cases b <;> cases hshape
  case int => exact number_inj rfl (isNumber_of_shape hshape.symm) hs ht h
  case float => exact number_inj rfl (isNumber_of_shape hshape.symm) hs ht h
  case string =>
    rcases w with _ | c | _ | _ | c | _ | _ | _
    case string =>
      obtain ⟨rfl, hrest⟩ := quoted_inj h
      exact ⟨rfl, hrest⟩
    case unreadable => exact absurd h (quoted_ne_unreadable a s t)
    case bool => cases c <;> cases hshape
    all_goals cases hshape
  case unreadable =>
    rcases w with _ | c | _ | _ | c | _ | _ | _
    case string => exact absurd h.symm (quoted_ne_unreadable c t s)
    case unreadable => exact ⟨rfl, List.append_cancel_left h⟩
    case bool => cases c <;> cases hshape
    all_goals cases hshape
  case array => exact absurd rfl hv.1
  case object => exact absurd rfl hv.2

theorem writeItems_eq_map : ∀ items : List Json, writeItems items = items.map write
  | [] => rfl
  | item :: rest => congrArg (item.write :: ·) (writeItems_eq_map rest)

theorem writeMembers_eq_map : ∀ members : List (String × Json),
    writeMembers members = members.map fun m => quoted m.1 ++ ':' :: m.2.write
  | [] => rfl
  | (name, value) :: rest =>
    congrArg ((quoted name ++ ':' :: value.write) :: ·) (writeMembers_eq_map rest)

/-- Parts that do not start with the closing bracket may each be taken with a comma before it. -/
theorem flatMap_of_joined {as bs : List (List Char)} {closing : Char} {s t : List Char}
    (ha : ∀ a ∈ as, ∀ s t, a ++ s ≠ closing :: t) (hb : ∀ b ∈ bs, ∀ s t, b ++ s ≠ closing :: t)
    (h : joined [','] as ++ [closing] ++ s = joined [','] bs ++ [closing] ++ t) :
    as.flatMap (',' :: ·) ++ closing :: s = bs.flatMap (',' :: ·) ++ closing :: t := by
  rw [List.append_assoc, List.append_assoc] at h
  rcases as with _ | ⟨a, as⟩
  · rcases bs with _ | ⟨b, bs⟩
    · exact h
    · rw [joined_cons, List.append_assoc] at h
      exact absurd h.symm (hb b List.mem_cons_self _ _)
  · rcases bs with _ | ⟨b, bs⟩
    · rw [joined_cons, List.append_assoc] at h
      exact absurd h (ha a List.mem_cons_self _ _)
    · rw [joined_cons, joined_cons] at h
      rw [List.flatMap_cons, List.flatMap_cons]
      exact congrArg (',' :: ·) h

theorem item_ne_closing {items : List Json} :
    ∀ a ∈ writeItems items, ∀ s t, a ++ s ≠ ']' :: t := by
  intro a ha s t
  rw [writeItems_eq_map] at ha
  obtain ⟨item, -, rfl⟩ := List.mem_map.1 ha
  exact write_ne_cons rfl

theorem member_ne_closing {members : List (String × Json)} :
    ∀ a ∈ writeMembers members, ∀ s t, a ++ s ≠ '\x7d' :: t := by
  intro a ha s t
  rw [writeMembers_eq_map] at ha
  obtain ⟨m, -, rfl⟩ := List.mem_map.1 ha
  exact nofun

theorem exists_array {w : Json} (h : w.shape = 4) : ∃ items, w = .array items := by
  rcases w with _ | b | _ | _ | _ | items | _ | _
  case array => exact ⟨items, rfl⟩
  case bool => cases b <;> cases h
  all_goals cases h

theorem exists_object {w : Json} (h : w.shape = 5) : ∃ members, w = .object members := by
  rcases w with _ | b | _ | _ | _ | _ | members | _
  case object => exact ⟨members, rfl⟩
  case bool => cases b <;> cases h
  all_goals cases h

mutual

/-- A value is told by its text, whatever follows it but more characters of a number. -/
theorem write_inj : ∀ (v w : Json) {s t : List Char}, Parted s → Parted t →
    v.write ++ s = w.write ++ t → v = w ∧ s = t
  | .array items, w, s, t, hs, ht, h => by
    obtain ⟨others, rfl⟩ := exists_array (shape_eq h).symm
    obtain ⟨rfl, hrest⟩ := items_inj items others
      (flatMap_of_joined item_ne_closing item_ne_closing (List.cons.inj h).2)
    exact ⟨rfl, hrest⟩
  | .object members, w, s, t, hs, ht, h => by
    obtain ⟨others, rfl⟩ := exists_object (shape_eq h).symm
    obtain ⟨rfl, hrest⟩ := members_inj members others
      (flatMap_of_joined member_ne_closing member_ne_closing (List.cons.inj h).2)
    exact ⟨rfl, hrest⟩
  | .null, w, s, t, hs, ht, h => leaf_inj (by decide) hs ht h
  | .bool b, w, s, t, hs, ht, h => leaf_inj (by cases b <;> decide) hs ht h
  | .int i fits, w, s, t, hs, ht, h => leaf_inj ⟨nofun, nofun⟩ hs ht h
  | .float x finite, w, s, t, hs, ht, h => leaf_inj ⟨nofun, nofun⟩ hs ht h
  | .string a, w, s, t, hs, ht, h => leaf_inj ⟨nofun, nofun⟩ hs ht h
  | .unreadable, w, s, t, hs, ht, h => leaf_inj (by decide) hs ht h

theorem items_inj : ∀ (xs ys : List Json) {s t : List Char},
    (writeItems xs).flatMap (',' :: ·) ++ ']' :: s =
      (writeItems ys).flatMap (',' :: ·) ++ ']' :: t → xs = ys ∧ s = t
  | [], [], s, t, h => ⟨rfl, (List.cons.inj h).2⟩
  | [], y :: ys, s, t, h => by cases h
  | x :: xs, [], s, t, h => by cases h
  | x :: xs, y :: ys, s, t, h => by
    simp only [writeItems, List.flatMap_cons, List.cons_append, List.append_assoc] at h
    obtain ⟨rfl, hrest⟩ := write_inj x y (parted_flatMap _ s rfl) (parted_flatMap _ t rfl)
      (List.cons.inj h).2
    obtain ⟨rfl, hend⟩ := items_inj xs ys hrest
    exact ⟨rfl, hend⟩

theorem members_inj : ∀ (ms ns : List (String × Json)) {s t : List Char},
    (writeMembers ms).flatMap (',' :: ·) ++ '\x7d' :: s =
      (writeMembers ns).flatMap (',' :: ·) ++ '\x7d' :: t → ms = ns ∧ s = t
  | [], [], s, t, h => ⟨rfl, (List.cons.inj h).2⟩
  | [], n :: ns, s, t, h => by cases h
  | m :: ms, [], s, t, h => by cases h
  | (a, v) :: ms, (b, w) :: ns, s, t, h => by
    simp only [writeMembers, List.flatMap_cons, List.cons_append, List.append_assoc] at h
    obtain ⟨rfl, hvalue⟩ := quoted_inj (List.cons.inj h).2
    obtain ⟨rfl, hrest⟩ := write_inj v w (parted_flatMap _ s rfl) (parted_flatMap _ t rfl)
      (List.cons.inj hvalue).2
    obtain ⟨rfl, hend⟩ := members_inj ms ns hrest
    exact ⟨rfl, hend⟩

end

theorem text_inj {v w : Json} (h : v.text = w.text) : v = w := by
  have hwritten : v.write ++ [] = w.write ++ [] := by
    rw [List.append_nil, List.append_nil]
    exact String.ofList_injective h
  have hend : Parted [] := rfl
  exact (write_inj v w hend hend hwritten).1

end VirtualPeople.Json
