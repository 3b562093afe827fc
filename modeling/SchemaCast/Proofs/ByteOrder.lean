import Mathlib.Data.List.Basic

namespace SchemaCast.Text

/-- The bytes of a text in UTF-8. -/
def bytes (text : String) : List UInt8 := text.toUTF8.data.toList

theorem bytes_eq (text : String) : bytes text = text.toList.flatMap String.utf8EncodeChar := by
  have h : text.toUTF8 = text.toList.utf8Encode := String.utf8Encode_toList.symm
  rw [bytes, h, List.utf8Encode, List.data_toByteArray]

/-- The first byte decides, and if it is the same then what follows does. -/
theorem byte_cons_lt {m n : Nat} {xs ys : List UInt8} (hm : m < 256) (hn : n < 256) (hle : m ≤ n)
    (htail : m = n → xs < ys) : UInt8.ofNat m :: xs < UInt8.ofNat n :: ys := by
  rw [List.cons_lt_cons_iff, UInt8.lt_iff_toNat_lt, UInt8.toNat_ofNat', UInt8.toNat_ofNat',
    Nat.mod_eq_of_lt hm, Nat.mod_eq_of_lt hn]
  rcases Nat.lt_or_eq_of_le hle with h | rfl
  · exact .inl h
  · exact .inr ⟨rfl, htail rfl⟩

/-- A byte that is less decides, whatever follows. -/
theorem byte_cons_lt_of_lt {m n : Nat} {xs ys : List UInt8} (hn : n < 256) (h : m < n) :
    UInt8.ofNat m :: xs < UInt8.ofNat n :: ys :=
  byte_cons_lt (Nat.lt_trans h hn) hn (Nat.le_of_lt h) fun he => absurd he (Nat.ne_of_lt h)

theorem toNat_lt_of_char (c : Char) : c.val.toNat < 0x110000 := by
  rcases c.valid with h | ⟨_, h⟩
  · exact Nat.lt_trans h (by decide)
  · exact h

-- The two encodings have one of four lengths each. The longer one has the greater first byte; of
-- the same length they are digits to base 64 behind the mark of the length.
theorem encode_append_lt {c d : Char} (h : c < d) (xs ys : List UInt8) :
    String.utf8EncodeChar c ++ xs < String.utf8EncodeChar d ++ ys := by
  have hlt : c.val.toNat < d.val.toNat := h
  have hbound := toNat_lt_of_char d
  unfold String.utf8EncodeChar
  generalize c.val.toNat = v at hlt ⊢
  generalize d.val.toNat = w at hlt hbound ⊢
  dsimp only
  by_cases hone : w ≤ 127
  · rw [if_pos hone, if_pos (by omega)]
    exact byte_cons_lt_of_lt (by omega) hlt
  · rw [if_neg hone]
    by_cases htwo : w ≤ 2047
    · rw [if_pos htwo]
      split
      · exact byte_cons_lt_of_lt (by omega) (by omega)
      · rw [if_pos (by omega)]
        exact byte_cons_lt (by omega) (by omega) (by omega) fun _ =>
          byte_cons_lt_of_lt (by omega) (by omega)
    · rw [if_neg htwo]
      by_cases hthree : w ≤ 65535
      · rw [if_pos hthree]
        split
        · exact byte_cons_lt_of_lt (by omega) (by omega)
        · split
          · exact byte_cons_lt_of_lt (by omega) (by omega)
          · rw [if_pos (by omega)]
            exact byte_cons_lt (by omega) (by omega) (by omega) fun _ =>
              byte_cons_lt (by omega) (by omega) (by omega) fun _ =>
                byte_cons_lt_of_lt (by omega) (by omega)
      · rw [if_neg hthree]
        split
        · exact byte_cons_lt_of_lt (by omega) (by omega)
        · split
          · exact byte_cons_lt_of_lt (by omega) (by omega)
          · split
            · exact byte_cons_lt_of_lt (by omega) (by omega)
            · exact byte_cons_lt (by omega) (by omega) (by omega) fun _ =>
                byte_cons_lt (by omega) (by omega) (by omega) fun _ =>
                  byte_cons_lt (by omega) (by omega) (by omega) fun _ =>
                    byte_cons_lt_of_lt (by omega) (by omega)

theorem append_lt_append {xs ys : List UInt8} (h : xs < ys) (front : List UInt8) :
    front ++ xs < front ++ ys := by
  induction front with
  | nil => exact h
  | cons b front ih => exact List.cons_lt_cons_iff.mpr (.inr ⟨rfl, ih⟩)

theorem flatMap_encode_lt {cs ds : List Char} (h : cs < ds) :
    cs.flatMap String.utf8EncodeChar < ds.flatMap String.utf8EncodeChar := by
  induction cs generalizing ds with
  | nil =>
    cases ds with
    | nil => exact absurd h (List.lt_irrefl _)
    | cons d ds =>
      have hne : String.utf8EncodeChar d ≠ [] := String.utf8EncodeChar_ne_nil
      obtain ⟨b, bs, he⟩ := List.exists_cons_of_ne_nil hne
      rw [List.flatMap_nil, List.flatMap_cons, he]
      exact List.nil_lt_cons _ _
  | cons c cs ih =>
    cases ds with
    | nil => cases h
    | cons d ds =>
      rw [List.flatMap_cons, List.flatMap_cons]
      rcases List.cons_lt_cons_iff.mp h with hhead | ⟨rfl, htail⟩
      · exact encode_append_lt hhead _ _
      · exact append_lt_append (ih htail) _

/-- Texts have the order of their bytes. -/
theorem bytes_lt_iff {a b : String} : bytes a < bytes b ↔ a < b := by
  have hmono {a b : String} (h : a < b) : bytes a < bytes b := by
    rw [bytes_eq, bytes_eq]
    exact flatMap_encode_lt (String.lt_iff.mp h)
  refine ⟨fun h => ?_, hmono⟩
  by_contra hle
  by_cases hne : a = b
  · rw [hne] at h
    exact List.lt_irrefl _ h
  · have hlt : b < a := by grind
    exact List.lt_asymm h (hmono hlt)

theorem bytes_le_iff {a b : String} : bytes a ≤ bytes b ↔ a ≤ b :=
  not_congr bytes_lt_iff

end SchemaCast.Text
