import Mathlib.Data.List.Basic
import SchemaCast.Rejection

namespace SchemaCast.Rejection

/-- The first characters that are in a class, where the next one is not, are told from the text. -/
theorem append_inj_of_class {holds : Char → Bool} {s t rest other : List Char}
    (hs : ∀ c ∈ s, holds c = true) (ht : ∀ c ∈ t, holds c = true)
    (hrest : ∀ c ∈ rest.head?, holds c = false) (hother : ∀ c ∈ other.head?, holds c = false)
    (h : s ++ rest = t ++ other) : s = t ∧ rest = other := by
  have stops {cs : List Char} (hcs : ∀ c ∈ cs.head?, holds c = false) :
      cs.takeWhile holds = [] := by
    cases cs with
    | nil => rfl
    | cons c cs => simp [hcs c rfl]
  have htake := congrArg (List.takeWhile holds) h
  rw [List.takeWhile_append_of_pos hs, List.takeWhile_append_of_pos ht, stops hrest,
    stops hother, List.append_nil, List.append_nil] at htake
  subst htake
  exact ⟨rfl, List.append_cancel_left h⟩

/-- The three forms of a segment. -/
inductive WritesSegment (s : List Char) : List Char → Prop where
  | plain (key : isPlainKey s = true) : WritesSegment s ('.' :: s)
  | index (digits : isIndex s = true) : WritesSegment s ('[' :: s ++ [']'])
  | quoted : WritesSegment s ('[' :: '\'' :: s ++ ['\'', ']'])

theorem writes_segmentChars (s : List Char) : WritesSegment s (segmentChars s) := by
  unfold segmentChars
  split
  · exact .plain ‹_›
  · split
    · exact .index ‹_›
    · exact .quoted

theorem isNamePart_of_isPlainKey {s : List Char} (h : isPlainKey s = true) :
    ∀ c ∈ s, isNamePart c = true := by
  cases s with
  | nil => cases h
  | cons c cs =>
    simp only [isPlainKey, isNameStart, Bool.and_eq_true, Bool.or_eq_true, List.all_eq_true] at h
    obtain ⟨hstart, hrest⟩ := h
    intro d hd
    rcases List.mem_cons.mp hd with rfl | hd
    · simp only [isNamePart, Char.isAlphanum, Bool.or_eq_true]
      tauto
    · exact hrest d hd

/-- An index starts with a digit. -/
theorem exists_digit_of_isIndex {s : List Char} (h : isIndex s = true) :
    ∃ d rest, s = d :: rest ∧ d.isDigit = true := by
  cases s with
  | nil => cases h
  | cons d rest =>
    simp only [isIndex, List.isEmpty_cons, Bool.not_false, Bool.true_and, List.all_cons,
      Bool.and_eq_true] at h
    exact ⟨d, rest, rfl, h.1⟩

theorem isDigit_of_isIndex {s : List Char} (h : isIndex s = true) :
    ∀ c ∈ s, c.isDigit = true := by
  simp only [isIndex, Bool.and_eq_true, List.all_eq_true] at h
  exact h.2

/-- An index in brackets does not read as quoted text. -/
theorem index_ne_quoted {s t rest other : List Char} (h : isIndex s = true) :
    '[' :: s ++ [']'] ++ rest ≠ '[' :: '\'' :: t ++ ['\'', ']'] ++ other := by
  obtain ⟨d, digits, rfl, hd⟩ := exists_digit_of_isIndex h
  intro he
  simp only [List.cons_append, List.cons.injEq] at he
  rw [he.2.1] at hd
  cases hd

/-- The segment that a text starts with is told from the text, if no name goes on behind it. -/
theorem WritesSegment.unique {s t text other : List Char} (h : WritesSegment s text)
    (ho : WritesSegment t other) (hs : '\'' ∉ s) (ht : '\'' ∉ t) {rest behind : List Char}
    (hrest : ∀ c ∈ rest.head?, isNamePart c = false)
    (hbehind : ∀ c ∈ behind.head?, isNamePart c = false)
    (he : text ++ rest = other ++ behind) : s = t ∧ rest = behind := by
  cases h with
  | plain key =>
    cases ho with
    | plain key' =>
      exact append_inj_of_class (isNamePart_of_isPlainKey key) (isNamePart_of_isPlainKey key')
        hrest hbehind (List.cons.inj he).2
    | index | quoted => simp at he
  | index digits =>
    cases ho with
    | plain => simp at he
    | index digits' =>
      simp only [List.cons_append, List.append_assoc, List.cons.injEq, true_and] at he
      obtain ⟨hst, hclosed⟩ := append_inj_of_class (isDigit_of_isIndex digits)
        (isDigit_of_isIndex digits') (by simp) (by simp) he
      exact ⟨hst, by simpa using hclosed⟩
    | quoted => exact absurd he (index_ne_quoted digits)
  | quoted =>
    cases ho with
    | plain => simp at he
    | index digits => exact absurd he.symm (index_ne_quoted digits)
    | quoted =>
      have unquoted {cs : List Char} (hcs : '\'' ∉ cs) : ∀ c ∈ cs, (c != '\'') = true := by
        intro c hc
        simpa using fun h : c = '\'' => hcs (h ▸ hc)
      simp only [List.cons_append, List.append_assoc, List.cons.injEq, true_and] at he
      obtain ⟨hst, hclosed⟩ := append_inj_of_class (unquoted hs) (unquoted ht) (by simp)
        (by simp) he
      exact ⟨hst, by simpa using hclosed⟩

/-- The characters of segments one after another. -/
def pathChars (path : List String) : List Char :=
  path.flatMap fun segment => segmentChars segment.toList

theorem segmentChars_head (s : List Char) :
    ∃ c rest, segmentChars s = c :: rest ∧ isNamePart c = false := by
  generalize htext : segmentChars s = text
  have h := htext ▸ writes_segmentChars s
  cases h with
  | plain => exact ⟨_, _, rfl, by decide⟩
  | index | quoted => exact ⟨_, _, rfl, by decide⟩

theorem pathChars_head (path : List String) :
    ∀ c ∈ (pathChars path).head?, isNamePart c = false := by
  cases path with
  | nil => simp [pathChars]
  | cons segment path =>
    obtain ⟨c, rest, hc, hname⟩ := segmentChars_head segment.toList
    simp [pathChars, hc, hname]

theorem pathChars_inj {path other : List String} (hpath : ∀ s ∈ path, '\'' ∉ s.toList)
    (hother : ∀ s ∈ other, '\'' ∉ s.toList) (h : pathChars path = pathChars other) :
    path = other := by
  -- The first segments are told from the texts, and what stands behind them is again a path.
  induction path generalizing other with
  | nil =>
    cases other with
    | nil => rfl
    | cons t other =>
      obtain ⟨c, rest, hc, _⟩ := segmentChars_head t.toList
      simp [pathChars, hc] at h
  | cons s path ih =>
    cases other with
    | nil =>
      obtain ⟨c, rest, hc, _⟩ := segmentChars_head s.toList
      simp [pathChars, hc] at h
    | cons t other =>
      obtain ⟨hs, hpath⟩ := List.forall_mem_cons.mp hpath
      obtain ⟨ht, hother⟩ := List.forall_mem_cons.mp hother
      obtain ⟨hst, hrest⟩ := (writes_segmentChars s.toList).unique (writes_segmentChars t.toList)
        hs ht (pathChars_head path) (pathChars_head other) h
      rw [String.toList_inj.mp hst, ih hpath hother hrest]

/-- Paths whose segments have no apostrophe have the same text only if they are the same. -/
theorem renderPath_inj {path other : List String} (hpath : ∀ s ∈ path, '\'' ∉ s.toList)
    (hother : ∀ s ∈ other, '\'' ∉ s.toList) :
    renderPath path = renderPath other ↔ path = other := by
  constructor
  · intro h
    apply pathChars_inj hpath hother
    exact (List.cons.inj (String.ofList_injective h)).2
  · exact congrArg renderPath

/-- Keys that look like other segments, and a key that looks like several of them. -/
def lookalikes : List String := ["", "[0]", "x]", "1", "a.b", "a\n"]

def mergedLookalikes : List String := ["", "[0]x]", "1", "a.b", "a\n"]

theorem lookalikes_told_apart :
    (∀ s ∈ lookalikes, '\'' ∉ s.toList) ∧ (∀ s ∈ mergedLookalikes, '\'' ∉ s.toList) ∧
      (renderPath lookalikes = renderPath mergedLookalikes ↔ lookalikes = mergedLookalikes) ∧
      lookalikes ≠ mergedLookalikes := by
  have hpath : ∀ s ∈ lookalikes, '\'' ∉ s.toList := by decide
  have hother : ∀ s ∈ mergedLookalikes, '\'' ∉ s.toList := by decide
  exact ⟨hpath, hother, renderPath_inj hpath hother, by decide⟩

/-- With apostrophes, one key can pass for two. -/
example : renderPath ["a b']['c d"] = renderPath ["a b", "c d"] := by decide

end SchemaCast.Rejection
