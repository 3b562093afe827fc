import SchemaCast.Proofs.Numerals

namespace SchemaCast.Json

theorem hexDigit?_digitChar : ∀ k < 16, hexDigit? (Nat.digitChar k) = some k := by decide

/-- The code of a control, written as two hexadecimal digits. -/
theorem hexUnit?_control {n : Nat} (h : n < 32) :
    hexUnit? '0' '0' (Nat.digitChar (n / 16)) (Nat.digitChar (n % 16)) = some n := by
  have hzero : hexDigit? '0' = some 0 := by decide
  have hhigh := hexDigit?_digitChar (n / 16) (by omega)
  have hlow := hexDigit?_digitChar (n % 16) (by omega)
  simp only [hexUnit?, hzero, hhigh, hlow, bind, Option.bind_some, pure, Option.some.injEq]
  omega

/-- A letter behind a backslash stands for a character. -/
theorem takePieces?_letter {letter c : Char} (h : escapedChar? letter = some c) (rest : List Char) :
    takePieces? ('\\' :: letter :: rest) =
      (takePieces? rest).map fun (pieces, rest) => (.char c :: pieces, rest) := by
  have hu : letter ≠ 'u' := by
    rintro rfl
    cases h
  rw [takePieces?, h]
  · cases takePieces? rest <;> rfl
  · intro _ _ _ _ _ he
    exact absurd he hu

theorem takePieces?_plain {c : Char} (hquote : c ≠ '"') (hbackslash : c ≠ '\\')
    (hcontrol : ¬c.toNat < 32) (rest : List Char) :
    takePieces? (c :: rest) =
      (takePieces? rest).map fun (pieces, rest) => (.char c :: pieces, rest) := by
  have hplain : ¬(c = '\\' ∨ c.toNat < 32) := by simp [hbackslash, hcontrol]
  rw [takePieces?, if_neg hplain]
  · cases takePieces? rest <;> rfl
  · exact hquote
  · intro _ _ _ _ _ he
    exact absurd he hbackslash
  · intro _ _ he
    exact absurd he hbackslash

/-- An escape is read as one piece: the character, or its code if this is a control. -/
theorem takePieces?_escape (c : Char) :
    ∃ p, (p = .char c ∨ p = .unit c.toNat ∧ c.toNat < 32) ∧
      ∀ rest, takePieces? (escape c ++ rest) =
        (takePieces? rest).map fun (pieces, rest) => (p :: pieces, rest) := by
  have ofCode {n : Nat} (h : c.toNat = n) : Char.ofNat n = c := h ▸ Char.ofNat_toNat c
  have letter {letter : Char} (h : escapedChar? letter = some c) :
      ∃ p, (p = .char c ∨ p = .unit c.toNat ∧ c.toNat < 32) ∧
        ∀ rest, takePieces? (['\\', letter] ++ rest) =
          (takePieces? rest).map fun (pieces, rest) => (p :: pieces, rest) :=
    ⟨.char c, .inl rfl, takePieces?_letter h⟩
  unfold escape
  split
  · exact letter (by subst c; rfl)
  split
  · exact letter (by subst c; rfl)
  split
  · exact letter (by subst c; rfl)
  split
  · exact letter (by subst c; rfl)
  split
  · exact letter (by subst c; rfl)
  split
  · rename_i h
    exact letter (congrArg some (ofCode h))
  split
  · rename_i h
    exact letter (congrArg some (ofCode h))
  split
  · rename_i h
    refine ⟨.unit c.toNat, .inr ⟨rfl, h⟩, fun rest => ?_⟩
    simp only [List.cons_append, List.nil_append, takePieces?, hexUnit?_control h]
    cases takePieces? rest <;> rfl
  · exact ⟨.char c, .inl rfl, takePieces?_plain ‹_› ‹_› ‹_›⟩

theorem charsOfPieces?_cons {c : Char} {p : StringPiece} (pieces : List StringPiece)
    (h : p = .char c ∨ p = .unit c.toNat ∧ c.toNat < 32) :
    charsOfPieces? (p :: pieces) = (charsOfPieces? pieces).map (c :: ·) := by
  rcases h with rfl | ⟨rfl, hc⟩
  · rw [charsOfPieces?]
  · have hhigh : isHighSurrogate c.toNat = false := by
      simp [isHighSurrogate]
      omega
    have hlow : isLowSurrogate c.toNat = false := by
      simp [isLowSurrogate]
      omega
    rcases pieces with _ | ⟨_ | _, pieces⟩ <;> simp [charsOfPieces?, hhigh, hlow]

theorem takePieces?_escaped (cs rest : List Char) :
    ∃ pieces, takePieces? (cs.flatMap escape ++ '"' :: rest) = some (pieces, rest) ∧
      charsOfPieces? pieces = some cs := by
  induction cs with
  | nil => exact ⟨[], rfl, rfl⟩
  | cons c cs ih =>
    obtain ⟨pieces, htake, hchars⟩ := ih
    obtain ⟨p, hp, hescape⟩ := takePieces?_escape c
    refine ⟨p :: pieces, ?_, ?_⟩
    · rw [List.flatMap_cons, List.append_assoc, hescape, htake, Option.map_some]
    · rw [charsOfPieces?_cons pieces hp, hchars, Option.map_some]

theorem takeLexeme?_quoted (s : String) (rest : List Char) :
    takeLexeme? (quoted s ++ rest) = some (.string (some s), rest) := by
  obtain ⟨pieces, htake, hchars⟩ := takePieces?_escaped s.toList rest
  rw [quoted, List.append_assoc, List.singleton_append, List.cons_append, takeLexeme?, htake,
    Option.map_some]
  dsimp only
  rw [hchars, Option.map_some, String.ofList_toList]

/-- A sign or a digit begins a number. -/
theorem takeLexeme?_number {c : Char} (h : c.isDigit = true ∨ c = '-') (cs : List Char) :
    takeLexeme? (c :: cs) = (takeNumber? (c :: cs)).map fun (n, rest) => (.number n, rest) := by
  have hne (d : Char) (ds : List Char) (hdigit : d.isDigit = false) (hsign : d ≠ '-') :
      c :: cs ≠ d :: ds := by
    intro he
    obtain rfl := (List.cons.inj he).1
    rcases h with h | h
    · rw [h] at hdigit
      cases hdigit
    · exact hsign h
  rw [takeLexeme?]
  all_goals exact fun _ he => hne _ _ (by decide) (by decide) he

/-- The text of a numeral begins with a sign or a digit. -/
theorem Numeral.Writes.head {x : Numeral} {text : List Char} (h : x.Writes text) :
    ∃ c cs, text = c :: cs ∧ (c.isDigit = true ∨ c = '-') := by
  cases h with
  | @intro negative whole fraction point power _ isWhole _ _ =>
    cases negative with
    | true => exact ⟨_, _, rfl, .inr rfl⟩
    | false =>
      obtain ⟨c, digits, rfl, hc⟩ := isWhole.head
      exact ⟨_, _, rfl, .inl hc⟩

section Within

variable {limit : Nat} {cs : List Char} {lexemes : List Lexeme}

theorem lexemesWithin?_of_blank (h : cs.dropWhile isSpace = []) :
    lexemesWithin? limit cs = some [] := by
  unfold lexemesWithin?
  rw [h]

theorem lexemesWithin?_succ {c : Char} {text : List Char} (h : cs.dropWhile isSpace = c :: text) :
    lexemesWithin? (limit + 1) cs = some lexemes ↔ ∃ lexeme rest more,
      takeLexeme? (c :: text) = some (lexeme, rest) ∧ lexemesWithin? limit rest = some more ∧
        lexeme :: more = lexemes := by
  have hstep : lexemesWithin? (limit + 1) cs = (takeLexeme? (c :: text)).bind fun taken =>
      (lexemesWithin? limit taken.2).bind fun more => some (taken.1 :: more) := by
    conv_lhs => unfold lexemesWithin?
    rw [h]
    rfl
  rw [hstep]
  simp only [Option.bind_eq_some_iff, Option.some.injEq, Prod.exists, exists_and_left]

/-- A larger limit gives the same lexemes. -/
theorem lexemesWithin?_mono (h : lexemesWithin? limit cs = some lexemes) {larger : Nat}
    (hle : limit ≤ larger) : lexemesWithin? larger cs = some lexemes := by
  induction limit generalizing cs lexemes larger with
  | zero =>
    cases hblank : cs.dropWhile isSpace with
    | nil =>
      rw [lexemesWithin?_of_blank hblank] at h ⊢
      exact h
    | cons c text =>
      unfold lexemesWithin? at h
      rw [hblank] at h
      cases h
  | succ limit ih =>
    obtain ⟨larger, rfl⟩ := Nat.exists_eq_succ_of_ne_zero (by omega : larger ≠ 0)
    cases hblank : cs.dropWhile isSpace with
    | nil =>
      rw [lexemesWithin?_of_blank hblank] at h ⊢
      exact h
    | cons c text =>
      obtain ⟨lexeme, rest, more, htake, hmore, he⟩ := (lexemesWithin?_succ hblank).mp h
      exact (lexemesWithin?_succ hblank).mpr
        ⟨lexeme, rest, more, htake, ih hmore (Nat.le_of_succ_le_succ hle), he⟩

end Within

/-- The lexemes of a text, in front of anything that cannot belong to its last lexeme. -/
def Lexes (text : List Char) (lexemes : List Lexeme) : Prop :=
  ∀ limit rest more, EndsNumber rest → lexemesWithin? limit rest = some more →
    lexemesWithin? (text.length + limit) (text ++ rest) = some (lexemes ++ more)

namespace Lexes

theorem nil : Lexes [] [] := by
  intro limit rest more _ h
  rw [List.length_nil, Nat.zero_add]
  exact h

/-- A text that is taken as one lexeme. -/
theorem single {c : Char} {text : List Char} {lexeme : Lexeme} (hspace : isSpace c = false)
    (h : ∀ rest, EndsNumber rest → takeLexeme? (c :: text ++ rest) = some (lexeme, rest)) :
    Lexes (c :: text) [lexeme] := by
  intro limit rest more hrest hmore
  have hdrop : (c :: text ++ rest).dropWhile isSpace = c :: (text ++ rest) := by
    simp [hspace]
  have hlength : (c :: text).length + limit = text.length + limit + 1 := by
    simp; omega
  rw [hlength, lexemesWithin?_succ hdrop]
  exact ⟨lexeme, rest, more, h rest hrest, lexemesWithin?_mono hmore (by omega), rfl⟩

theorem append {first second : List Char} {ls ms : List Lexeme} (hfirst : Lexes first ls)
    (hsecond : Lexes second ms) (hends : ∀ rest, EndsNumber rest → EndsNumber (second ++ rest)) :
    Lexes (first ++ second) (ls ++ ms) := by
  intro limit rest more hrest hmore
  have h := hfirst _ _ _ (hends rest hrest) (hsecond limit rest more hrest hmore)
  rwa [← Nat.add_assoc, ← List.length_append, ← List.append_assoc, ← List.append_assoc] at h

/-- A mark in front of a text. -/
theorem mark {c : Char} {lexeme : Lexeme} {text : List Char} {ls : List Lexeme}
    (hspace : isSpace c = false) (hmark : ∀ rest, takeLexeme? (c :: rest) = some (lexeme, rest))
    (h : Lexes text ls) : Lexes (c :: text) (lexeme :: ls) := by
  intro limit rest more hrest hmore
  have hdrop : (c :: text ++ rest).dropWhile isSpace = c :: (text ++ rest) := by
    simp [hspace]
  have hlength : (c :: text).length + limit = text.length + limit + 1 := by
    simp; omega
  rw [hlength, lexemesWithin?_succ hdrop]
  exact ⟨lexeme, text ++ rest, ls ++ more, hmark _, h limit rest more hrest hmore, rfl⟩

/-- Space in front of a text. -/
theorem spaces {space text : List Char} {ls : List Lexeme} (hspace : ∀ c ∈ space, isSpace c = true)
    (h : Lexes text ls) : Lexes (space ++ text) ls := by
  intro limit rest more hrest hmore
  have hdrop (limit : Nat) : lexemesWithin? limit (space ++ text ++ rest) =
      lexemesWithin? limit (text ++ rest) := by
    unfold lexemesWithin?
    rw [List.append_assoc, List.dropWhile_append_of_pos hspace]
  rw [hdrop]
  refine lexemesWithin?_mono (h limit rest more hrest hmore) ?_
  simp

end Lexes

/-- A character that is a lexeme by itself, and that ends a number. -/
structure Mark (c : Char) (lexeme : Lexeme) : Prop where
  space : isSpace c = false
  take : ∀ rest, takeLexeme? (c :: rest) = some (lexeme, rest)
  ends : ∀ rest, EndsNumber (c :: rest)

theorem endsNumber_cons {c : Char} (h : c.isDigit = false ∧ c ≠ '.' ∧ c ≠ 'e' ∧ c ≠ 'E')
    (rest : List Char) : EndsNumber (c :: rest) := by
  intro d hd
  obtain rfl := Option.some.inj hd
  exact h

theorem mark_openArray : Mark '[' .openArray := ⟨by decide, fun _ => rfl, endsNumber_cons (by decide)⟩

theorem mark_closeArray : Mark ']' .closeArray :=
  ⟨by decide, fun _ => rfl, endsNumber_cons (by decide)⟩

theorem mark_openObject : Mark '{' .openObject :=
  ⟨by decide, fun _ => rfl, endsNumber_cons (by decide)⟩

theorem mark_closeObject : Mark '}' .closeObject :=
  ⟨by decide, fun _ => rfl, endsNumber_cons (by decide)⟩

theorem mark_colon : Mark ':' .colon := ⟨by decide, fun _ => rfl, endsNumber_cons (by decide)⟩

theorem mark_comma : Mark ',' .comma := ⟨by decide, fun _ => rfl, endsNumber_cons (by decide)⟩

theorem Mark.lexes {c : Char} {lexeme : Lexeme} (h : Mark c lexeme) {text : List Char}
    {ls : List Lexeme} (htext : Lexes text ls) : Lexes (c :: text) (lexeme :: ls) :=
  .mark h.space h.take htext

section Brackets

variable {spacing : Spacing} {level : Nat}

theorem lineBreak_isSpace : ∀ c ∈ lineBreak spacing level, isSpace c = true := by
  intro c hc
  cases spacing with
  | compact => cases hc
  | indented =>
    rcases List.mem_cons.mp hc with rfl | hc
    · decide
    · exact List.eq_of_mem_replicate hc ▸ by decide

theorem lineBreak_ends {rest : List Char} (h : EndsNumber rest) :
    EndsNumber (lineBreak spacing level ++ rest) := by
  cases spacing with
  | compact => exact h
  | indented => exact endsNumber_cons (by decide) _

/-- Further members before a text give a comma and the lexemes of each. -/
theorem lexes_furtherMembers {texts : List (List Char)} {parts : List (List Lexeme)}
    (h : List.Forall₂ Lexes texts parts) {tail : List Char} {ls : List Lexeme}
    (htail : Lexes tail ls) (hends : ∀ rest, EndsNumber (tail ++ rest)) :
    Lexes (furtherMembers spacing level texts ++ tail) (parts.flatMap (.comma :: ·) ++ ls) ∧
      ∀ rest, EndsNumber (furtherMembers spacing level texts ++ tail ++ rest) := by
  induction h with
  | nil => exact ⟨htail, hends⟩
  | @cons text part texts parts hpart _ ih =>
    obtain ⟨hlexes, hmore⟩ := ih
    have hsplit : furtherMembers spacing level (text :: texts) ++ tail =
        ',' :: (lineBreak spacing level ++ (text ++ (furtherMembers spacing level texts ++ tail))) := by
      simp [furtherMembers]
    rw [hsplit, List.flatMap_cons, List.append_assoc, List.cons_append]
    refine ⟨mark_comma.lexes (.spaces lineBreak_isSpace ?_), fun rest => mark_comma.ends _⟩
    exact hpart.append hlexes fun rest _ => hmore rest

/-- The lexemes of members between two marks. -/
def enclosed (opening closing : Lexeme) : List (List Lexeme) → List Lexeme
  | [] => [opening, closing]
  | first :: rest => opening :: (first ++ (rest.flatMap (.comma :: ·) ++ [closing]))

/-- Members between brackets give their lexemes between the marks of the brackets. -/
theorem lexes_bracketed {o c : Char} {opening closing : Lexeme} (hopening : Mark o opening)
    (hclosing : Mark c closing) {texts : List (List Char)} {parts : List (List Lexeme)}
    (h : List.Forall₂ Lexes texts parts) :
    Lexes (bracketed spacing level o c texts) (enclosed opening closing parts) := by
  cases h with
  | nil => exact hopening.lexes (hclosing.lexes .nil)
  | @cons text part texts parts hpart hrest =>
    have htail : Lexes (lineBreak spacing level ++ [c]) [closing] :=
      .spaces lineBreak_isSpace (hclosing.lexes .nil)
    have hends (rest : List Char) : EndsNumber (lineBreak spacing level ++ [c] ++ rest) := by
      rw [List.append_assoc]
      exact lineBreak_ends (hclosing.ends rest)
    obtain ⟨hlexes, hmore⟩ := @lexes_furtherMembers spacing (level + 1) _ _ hrest _ _ htail hends
    have hsplit : bracketed spacing level o c (text :: texts) =
        o :: (lineBreak spacing (level + 1) ++
          (text ++ (furtherMembers spacing (level + 1) texts ++ (lineBreak spacing level ++ [c])))) := by
      simp [bracketed]
    rw [hsplit]
    exact hopening.lexes (.spaces lineBreak_isSpace (hpart.append hlexes fun rest _ => hmore rest))

theorem lexes_quoted (s : String) : Lexes (quoted s) [.string (some s)] :=
  .single (by decide) fun rest _ => takeLexeme?_quoted s rest

theorem lexes_namedMember (name : String) {text : List Char} {ls : List Lexeme}
    (h : Lexes text ls) :
    Lexes (namedMember spacing name text) (.string (some name) :: .colon :: ls) := by
  cases spacing with
  | compact =>
    have hvalue : Lexes (':' :: text) (.colon :: ls) := mark_colon.lexes h
    exact (lexes_quoted name).append hvalue fun _ _ => mark_colon.ends _
  | indented =>
    have hspace : ∀ c ∈ [' '], isSpace c = true := List.forall_mem_singleton.mpr rfl
    have hvalue : Lexes (':' :: ' ' :: text) (.colon :: ls) := mark_colon.lexes (h.spaces hspace)
    exact (lexes_quoted name).append hvalue fun _ _ => mark_colon.ends _

end Brackets

mutual

/-- The lexemes that write a value. -/
def lexemes : Json → List Lexeme
  | null => [.null]
  | bool b => [.bool b]
  | number n => [.number n]
  | text s => [.string (some s)]
  | array members => enclosed .openArray .closeArray (lexemesOfMembers members)
  | object ⟨fields⟩ => enclosed .openObject .closeObject (lexemesOfFields fields)
termination_by structural j => j

def lexemesOfMembers : List Json → List (List Lexeme)
  | [] => []
  | j :: js => lexemes j :: lexemesOfMembers js
termination_by structural js => js

def lexemesOfFields : List (String × Json) → List (List Lexeme)
  | [] => []
  | (name, j) :: js => (.string (some name) :: .colon :: lexemes j) :: lexemesOfFields js
termination_by structural js => js

end

theorem lexemesOfMembers_eq_map (members : List Json) :
    lexemesOfMembers members = members.map lexemes := by
  induction members with
  | nil => rfl
  | cons j js ih => rw [lexemesOfMembers, ih, List.map_cons]

theorem lexemesOfFields_eq_map (fields : List (String × Json)) :
    lexemesOfFields fields =
      fields.map fun f => .string (some f.1) :: .colon :: f.2.lexemes := by
  induction fields with
  | nil => rfl
  | cons f fields ih =>
    obtain ⟨name, j⟩ := f
    rw [lexemesOfFields, ih, List.map_cons]

/-- A number stands somewhere in a value. -/
inductive HasNumber (n : Number) : Json → Prop where
  | here : HasNumber n (.number n)
  | member {members : List Json} {j : Json} (member : j ∈ members) (inside : HasNumber n j) :
    HasNumber n (.array members)
  | field {fields : List (String × Json)} {f : String × Json} (field : f ∈ fields)
      (inside : HasNumber n f.2) : HasNumber n (.object ⟨fields⟩)

/-- All numbers in a value that are not whole numbers below `2 ^ 53` are read to the nearest double
where they are printed. -/
def NumbersReadToNearest (j : Json) : Prop :=
  ∀ n, j.HasNumber n → n.wholeNumber? = none → ReadToNearest (numberText n)

@[simp] theorem numbersReadToNearest_text (s : String) : (text s).NumbersReadToNearest := by
  rintro n ⟨⟩

@[simp] theorem numbersReadToNearest_number (n : Number) :
    (number n).NumbersReadToNearest ↔ (n.wholeNumber? = none → ReadToNearest (numberText n)) := by
  constructor
  · exact fun h => h n .here
  · rintro h _ ⟨⟩
    exact h

@[simp] theorem numbersReadToNearest_array (members : List Json) :
    (array members).NumbersReadToNearest ↔ ∀ j ∈ members, j.NumbersReadToNearest := by
  constructor
  · exact fun h j hj n hn => h n (.member hj hn)
  · rintro h n (_ | ⟨hj, hn⟩)
    exact h _ hj n hn

@[simp] theorem numbersReadToNearest_object (fields : List (String × Json)) :
    (object ⟨fields⟩).NumbersReadToNearest ↔ ∀ f ∈ fields, f.2.NumbersReadToNearest := by
  constructor
  · exact fun h f hf n hn => h n (.field hf hn)
  · rintro h n (_ | _ | ⟨hf, hn⟩)
    exact h _ hf n hn

theorem lexes_numberText {n : Number} (kept : Value.numberJson n = .number n)
    (hnearest : n.wholeNumber? = none → ReadToNearest (numberText n)) :
    Lexes (numberText n) [.number n] := by
  obtain ⟨x, hwrites, hx⟩ := exists_writes_numberText kept hnearest
  have htake {rest : List Char} (hrest : EndsNumber rest) :
      takeNumber? (numberText n ++ rest) = some (n, rest) := by
    rw [takeNumber?_append hwrites hrest, hx]
  obtain ⟨c, cs, htext, hc⟩ := hwrites.head
  rw [htext] at htake ⊢
  have hspace : isSpace c = false := by
    rcases hc with hc | rfl
    · by_contra hspace
      simp only [isSpace, Bool.not_eq_false, Bool.or_eq_true, beq_iff_eq] at hspace
      rcases hspace with ((rfl | rfl) | rfl) | rfl <;> cases hc
    · decide
  refine .single hspace fun rest hrest => ?_
  rw [List.cons_append, takeLexeme?_number hc, ← List.cons_append, htake hrest, Option.map_some]

/-- The printed text of a canonical value has the lexemes of this value. -/
theorem Canonical.lexes_written {j : Json} (h : j.Canonical) (hnumbers : j.NumbersReadToNearest)
    (spacing : Spacing) (level : Nat) : Lexes (j.written spacing level) j.lexemes := by
  induction h generalizing level with
  | null => exact .single (by decide) fun _ _ => rfl
  | bool b => cases b <;> exact .single (by decide) fun _ _ => rfl
  | number kept => exact lexes_numberText kept ((numbersReadToNearest_number _).mp hnumbers)
  | text s => exact lexes_quoted s
  | @array members _ ih =>
    rw [numbersReadToNearest_array] at hnumbers
    rw [written, lexemes, writtenMembers_eq_map, lexemesOfMembers_eq_map]
    refine lexes_bracketed mark_openArray mark_closeArray ?_
    rw [List.forall₂_map_left_iff, List.forall₂_map_right_iff, List.forall₂_same]
    exact fun j hj => ih j hj (hnumbers j hj) _
  | @object fields _ _ ih =>
    rw [numbersReadToNearest_object] at hnumbers
    rw [written, lexemes, writtenFields_eq_map, lexemesOfFields_eq_map]
    refine lexes_bracketed mark_openObject mark_closeObject ?_
    rw [List.forall₂_map_left_iff, List.forall₂_map_right_iff, List.forall₂_same]
    exact fun f hf => lexes_namedMember f.1 (ih f hf (hnumbers f hf) _)

end SchemaCast.Json
