import TickKernel.Thread.Name

/-!
# The longest name that fits

A name is put into a text of bounded size, one character after the other, until the text refuses
one.  Whatever that text is, as long as it takes a character in whole or not at all, what it holds
in the end is the name up to its last character boundary within the size of the text.
-/

namespace TickKernel.ThreadName

/-! ## Bounded texts -/

def fill (push : String → Char → Bool × String) : String → List Char → String
  | text, [] => text
  | text, c :: rest =>
      match push text c with
      | (true, longer) => fill push longer rest
      | (false, same) => same

/-- A character is appended in whole, or refused for want of room, and then nothing changes. -/
structure PushesWhole (push : String → Char → Bool × String) (capacity : Nat) : Prop where
  appends : ∀ text c, text.utf8ByteSize + c.utf8Size ≤ capacity →
    push text c = (true, text.push c)
  refuses : ∀ text c, capacity < text.utf8ByteSize + c.utf8Size → push text c = (false, text)

theorem utf8ByteSize_ofList (cs : List Char) : (String.ofList cs).utf8ByteSize = byteCount cs := by
  induction cs with
  | nil => rfl
  | cons c rest ih =>
      rw [String.ofList_cons, String.utf8ByteSize_append, String.utf8ByteSize_singleton, ih,
        byteCount]

/-- What is pushed into a text are the leading characters that fit in the room left in it. -/
theorem fill_eq {push : String → Char → Bool × String} {capacity : Nat}
    (h : PushesWhole push capacity) {text : String} (hroom : text.utf8ByteSize ≤ capacity)
    (cs : List Char) :
    fill push text cs = text ++ String.ofList (fitting (capacity - text.utf8ByteSize) cs) := by
  induction cs generalizing text with
  | nil => simp [fill, fitting]
  | cons c rest ih =>
      by_cases hfits : text.utf8ByteSize + c.utf8Size ≤ capacity
      · have hlonger : (text.push c).utf8ByteSize ≤ capacity := by
          rwa [String.utf8ByteSize_push]
        have hleft : capacity - (text.push c).utf8ByteSize =
            capacity - text.utf8ByteSize - c.utf8Size := by
          rw [String.utf8ByteSize_push]
          omega
        have hfirst : c.utf8Size ≤ capacity - text.utf8ByteSize := by omega
        simp only [fill, h.appends text c hfits, fitting, if_pos hfirst]
        rw [ih hlonger, hleft, String.ofList_cons, String.push_eq_append, String.append_assoc]
      · have hfirst : ¬ c.utf8Size ≤ capacity - text.utf8ByteSize := by omega
        simp only [fill, h.refuses text c (by omega), fitting, if_neg hfirst]
        simp

/-! ## The characters that fit -/

theorem fitting_isPrefix (room : Nat) (cs : List Char) : fitting room cs <+: cs := by
  induction cs generalizing room with
  | nil => exact List.nil_prefix
  | cons c rest ih =>
      rw [fitting]
      split
      next => exact List.cons_prefix_cons.2 ⟨rfl, ih _⟩
      next => exact List.nil_prefix

theorem fitting_cases (room : Nat) (cs : List Char) :
    fitting room cs = cs ∨ ∃ c rest, cs = fitting room cs ++ c :: rest ∧
      room < byteCount (fitting room cs) + c.utf8Size := by
  induction cs generalizing room with
  | nil => exact .inl rfl
  | cons first others ih =>
      by_cases hfits : first.utf8Size ≤ room
      · simp only [fitting, if_pos hfits]
        rcases ih (room - first.utf8Size) with hall | ⟨c, rest, hothers, hnext⟩
        · exact .inl (by rw [hall])
        · refine .inr ⟨c, rest, by rw [List.cons_append, ← hothers], ?_⟩
          rw [byteCount]
          omega
      · simp only [fitting, if_neg hfits]
        exact .inr ⟨first, others, rfl, by rw [byteCount]; omega⟩

theorem byteCount_take_le {room count : Nat} {cs : List Char}
    (h : byteCount (cs.take count) ≤ room) :
    byteCount (cs.take count) ≤ byteCount (fitting room cs) := by
  induction cs generalizing room count with
  | nil => simp [byteCount]
  | cons c rest ih =>
      cases count with
      | zero => exact Nat.zero_le _
      | succ count =>
          rw [List.take_succ_cons, byteCount] at h ⊢
          have hfits : c.utf8Size ≤ room := by omega
          have hrest := ih (show byteCount (rest.take count) ≤ room - c.utf8Size by omega)
          rw [fitting, if_pos hfits, byteCount]
          omega

theorem fitting_of_byteCount_le {room : Nat} {cs : List Char} (h : byteCount cs ≤ room) :
    fitting room cs = cs := by
  induction cs generalizing room with
  | nil => rfl
  | cons c rest ih =>
      rw [byteCount] at h
      rw [fitting, if_pos (by omega), ih (by omega)]

/-! ## What is kept of a name -/

/-- What is kept is the longest part of a name, from its start on, that has so many bytes. -/
structure LongestFitting (capacity : Nat) (name kept : String) : Prop where
  utf8ByteSize_le : kept.utf8ByteSize ≤ capacity
  starts : ∃ rest, name = kept ++ rest
  /-- What is kept ends between two characters of the name. -/
  boundary : kept.rawEndPos.IsValid name
  /-- No boundary within the capacity lies behind that one. -/
  longest : ∀ other : String.Pos.Raw, other.IsValid name → other.byteIdx ≤ capacity →
    other.byteIdx ≤ kept.utf8ByteSize
  /-- If anything is left out, the first character of it has no room, whatever comes behind it. -/
  next : kept = name ∨ ∃ c rest, name = kept ++ String.singleton c ++ rest ∧
    capacity < kept.utf8ByteSize + c.utf8Size

theorem utf8ByteSize_bounded (name : String) :
    (bounded name).utf8ByteSize = byteCount (fitting maxNameBytes name.toList) :=
  utf8ByteSize_ofList _

theorem bounded_of_utf8ByteSize_le {name : String} (h : name.utf8ByteSize ≤ maxNameBytes) :
    bounded name = name := by
  have hcount : byteCount name.toList ≤ maxNameBytes := by
    rwa [← utf8ByteSize_ofList, String.ofList_toList]
  rw [bounded, fitting_of_byteCount_le hcount, String.ofList_toList]

theorem utf8ByteSize_bounded_le (name : String) : (bounded name).utf8ByteSize ≤ maxNameBytes := by
  rw [utf8ByteSize_bounded]
  exact byteCount_fitting_le _ _

theorem longestFitting_bounded (name : String) :
    LongestFitting maxNameBytes name (bounded name) where
  utf8ByteSize_le := utf8ByteSize_bounded_le name
  starts := by
    obtain ⟨rest, hrest⟩ := fitting_isPrefix maxNameBytes name.toList
    refine ⟨String.ofList rest, ?_⟩
    rw [bounded, ← String.ofList_append, hrest, String.ofList_toList]
  boundary := by
    rw [String.Pos.Raw.isValid_iff_exists_take_toList]
    refine ⟨(fitting maxNameBytes name.toList).length, ?_⟩
    rw [← List.prefix_iff_eq_take.1 (fitting_isPrefix maxNameBytes name.toList)]
    rfl
  longest := by
    intro other hother hle
    obtain ⟨count, hcount⟩ := String.Pos.Raw.isValid_iff_exists_take_toList.1 hother
    rw [utf8ByteSize_ofList] at hcount
    rw [hcount] at hle ⊢
    rw [utf8ByteSize_bounded]
    exact byteCount_take_le hle
  next := by
    rcases fitting_cases maxNameBytes name.toList with hall | ⟨c, rest, hname, hnext⟩
    · exact .inl (by rw [bounded, hall, String.ofList_toList])
    · refine .inr ⟨c, String.ofList rest, ?_, by rwa [utf8ByteSize_bounded]⟩
      rw [bounded, String.append_assoc, ← String.ofList_cons, ← String.ofList_append, ← hname,
        String.ofList_toList]

/--
What a thread keeps of its name, whatever text of that size it is put into: the longest leading
part of it that has at most `maxNameBytes` bytes and ends between two characters.  So a name that
was cut is not cut again, and a name that is short enough is not cut at all.
-/
theorem bounded_longest {push : String → Char → Bool × String}
    (h : PushesWhole push maxNameBytes) (name : String) :
    fill push "" name.toList = bounded name ∧
      LongestFitting maxNameBytes name (bounded name) ∧
      bounded (bounded name) = bounded name ∧
      (name.utf8ByteSize ≤ maxNameBytes → bounded name = name) := by
  refine ⟨?_, longestFitting_bounded name, ?_, bounded_of_utf8ByteSize_le⟩
  · rw [fill_eq h (Nat.zero_le _)]
    simp [bounded]
  · exact bounded_of_utf8ByteSize_le (utf8ByteSize_bounded_le name)

def pushWithin (capacity : Nat) (text : String) (c : Char) : Bool × String :=
  if text.utf8ByteSize + c.utf8Size ≤ capacity then (true, text.push c) else (false, text)

theorem pushesWhole_pushWithin (capacity : Nat) : PushesWhole (pushWithin capacity) capacity where
  appends _ _ hfits := if_pos hfits
  refuses _ _ hlong := if_neg (Nat.not_le_of_lt hlong)

/-- After nine bytes there is no room for a character of two, and the one of one is not kept. -/
theorem bounded_longest_of_gap :
    fill (pushWithin maxNameBytes) "" "aééééé!".toList = "aéééé" ∧
      LongestFitting maxNameBytes "aééééé!" "aéééé" ∧ bounded "aéééé" = "aéééé" := by
  have hkept : bounded "aééééé!" = "aéééé" := by decide
  obtain ⟨hfill, hlongest, hagain, -⟩ :=
    bounded_longest (pushesWhole_pushWithin maxNameBytes) "aééééé!"
  rw [hkept] at hfill hlongest hagain
  exact ⟨hfill, hlongest, hagain⟩

end TickKernel.ThreadName
