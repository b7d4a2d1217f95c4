import VirtualPeople.Proofs.Json.Writing
import VirtualPeople.Proofs.Record.Naming

/-!
# One value on each line

Compact text has no control character (`printable_write`), for strings have theirs escaped. So it
is a line of its own, and texts that are written on a line each are told apart again at the line
breaks (`Text.split_lines`).
-/

namespace VirtualPeople

namespace Json

/-- Without control characters. -/
def Printable (cs : List Char) : Prop := ∀ c ∈ cs, 0x20 ≤ c.toNat

theorem Printable.append {cs ds : List Char} (hc : Printable cs) (hd : Printable ds) :
    Printable (cs ++ ds) := by
  intro c h
  rcases List.mem_append.1 h with h | h
  · exact hc c h
  · exact hd c h

theorem Printable.cons {c : Char} {cs : List Char} (hc : 0x20 ≤ c.toNat) (h : Printable cs) :
    Printable (c :: cs) :=
  List.forall_mem_cons.2 ⟨hc, h⟩

theorem printable_nil : Printable [] := fun _ hc => absurd hc List.not_mem_nil

theorem printable_word {cs : List Char} (h : cs.all fun c => 0x20 ≤ c.toNat) : Printable cs :=
  fun c hc => of_decide_eq_true (List.all_eq_true.1 h c hc)

theorem printable_hexDigit : ∀ d < 16, 0x20 ≤ (hexDigit d).toNat := by
  decide

theorem printable_escape (c : Char) : Printable (escape c) := by
  unfold escape
  split_ifs with hquote hslash hb ht hn hf hr hcontrol
  iterate 7 exact printable_word rfl
  · have hhigh := printable_hexDigit (c.toNat / 16) (by omega)
    have hlow := printable_hexDigit (c.toNat % 16) (by omega)
    exact (printable_word rfl : Printable ['\\', 'u', '0', '0']).append
      (.cons hhigh (.cons hlow printable_nil))
  · exact .cons (Nat.not_lt.1 hcontrol) printable_nil

theorem printable_quoted (a : String) : Printable (quoted a) := by
  refine .cons (by decide) (.append (fun c hc => ?_) (printable_word rfl))
  obtain ⟨d, -, hd⟩ := List.mem_flatMap.1 hc
  exact printable_escape d c hd

theorem printable_number {v : Json} (h : v.isNumber) : Printable v.write := by
  intro c hc
  have hnumber := mem_write_number h c hc
  simp only [isNumberChar, Bool.or_eq_true, decide_eq_true_eq, Char.isDigit_iff_toNat] at hnumber
  rcases hnumber with (((hdigit | rfl) | rfl) | rfl) | rfl
  · have hzero : '0'.toNat = 0x30 := rfl
    omega
  all_goals decide

mutual

theorem printable_write : ∀ v : Json, Printable v.write
  | .null => printable_word rfl
  | .bool true => printable_word rfl
  | .bool false => printable_word rfl
  | .int i fits => printable_number rfl
  | .float x finite => printable_number rfl
  | .string a => printable_quoted a
  | .unreadable => printable_word rfl
  | .array items => .cons (by decide) ((printable_items items).append (printable_word rfl))
  | .object members => .cons (by decide) ((printable_members members).append (printable_word rfl))

theorem printable_items : ∀ items : List Json, Printable (joined [','] (writeItems items))
  | [] => printable_nil
  | [item] => printable_write item
  | item :: next :: more =>
    (printable_write item).append (.cons (by decide) (printable_items (next :: more)))

theorem printable_members : ∀ members : List (String × Json),
    Printable (joined [','] (writeMembers members))
  | [] => printable_nil
  | [(name, value)] => (printable_quoted name).append (.cons (by decide) (printable_write value))
  | (name, value) :: next :: more =>
    ((printable_quoted name).append (.cons (by decide) (printable_write value))).append
      (.cons (by decide) (printable_members (next :: more)))

end

theorem newline_not_mem_text (v : Json) : '\n' ∉ v.text.toList := by
  intro h
  rw [text, String.toList_ofList] at h
  exact absurd (printable_write v _ h) (by decide)

end Json

namespace Text

/-- Lines that are each ended by a line break. -/
theorem split_lines : ∀ {lines : List String}, (∀ line ∈ lines, '\n' ∉ line.toList) →
    split '\n' (String.join (lines.map (· ++ "\n"))) = lines ++ [""]
  | [], _ => rfl
  | line :: lines, h => by
    have hchars : (String.join ((line :: lines).map (· ++ "\n"))).toList =
        line.toList ++ '\n' :: (String.join (lines.map (· ++ "\n"))).toList := by
      simp [String.toList_join]
    have hline := split_of_not_mem (h line List.mem_cons_self)
    have hlines := split_lines fun next hnext => h next (List.mem_cons_of_mem line hnext)
    rw [split_eq_map_splitOn] at hline hlines ⊢
    rw [hchars, List.splitOn_append_cons_self, List.map_append, hline, hlines]
    rfl

end Text

end VirtualPeople
