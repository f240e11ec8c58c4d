import Mathlib
import SymCalc.Text.Basic

/-!
# Characters and their bytes

Texts are bytes, and programs are read character by character. Main statement: decoding the
bytes of characters gives the characters back, whatever plane they are in.
-/

namespace SymCalc.Text

/-- Bytes that belong to the character before are passed over. -/
theorem segmentsFrom_append {n : Nat} {bs : List UInt8} (hn : bs.length = n) (rest : List UInt8) :
    segmentsFrom n (bs ++ rest) = segmentsFrom 0 rest := by
  induction bs generalizing n with
  | nil =>
    subst hn
    rfl
  | cons b bs ih =>
    subst hn
    exact ih rfl

/-- The number in a byte made of a small number. -/
theorem toNat_byte {n : Nat} (hn : n < 256) : (UInt8.ofNat n).toNat = n := by
  rw [UInt8.toNat_ofNat']
  omega

/-- A byte made of a small number is compared as the number is. -/
theorem byte_lt_iff {n : Nat} (hn : n < 256) (b : UInt8) : UInt8.ofNat n < b ↔ n < b.toNat := by
  rw [UInt8.lt_iff_toNat_lt, toNat_byte hn]

/-- A byte is known by its number. -/
theorem byte_eq {b : UInt8} {n : Nat} (h : b.toNat = n) : UInt8.ofNat n = b := by
  rw [← h, UInt8.ofNat_toNat]

/-- A continuation byte is its payload, six bits, with the mark of one. -/
theorem continuation?_eq_some_iff {b : UInt8} {n : Nat} :
    continuation? b = some n ↔ n < 64 ∧ b.toNat = n + 128 := by
  have hmarked : (decide (0x80 ≤ b) && decide (b < 0xC0)) = true ↔
      128 ≤ b.toNat ∧ b.toNat < 192 := by
    rw [Bool.and_eq_true, decide_eq_true_eq, decide_eq_true_eq, UInt8.le_iff_toNat_le,
      UInt8.lt_iff_toNat_lt]
    rfl
  unfold continuation?
  constructor
  · intro h
    split at h
    · rename_i hb
      have hbounds := hmarked.mp hb
      have hn : b.toNat - 128 = n := Option.some.inj h
      omega
    · cases h
  · rintro ⟨hn, hb⟩
    rw [if_pos (hmarked.mpr (by omega)), hb, Nat.add_sub_cancel]

/-- The payload of a continuation byte is what was put in. -/
theorem continuation?_byte {n : Nat} (hn : n < 64) :
    continuation? (UInt8.ofNat (n + 128)) = some n :=
  continuation?_eq_some_iff.mpr ⟨hn, toNat_byte (by omega)⟩

/-- The bytes of the character with a code. -/
theorem utf8EncodeChar_ofNat {n : Nat} (hvalid : n < 0xD800 ∨ 0xDFFF < n ∧ n < 0x110000) :
    String.utf8EncodeChar (Char.ofNat n) =
      if n ≤ 127 then [UInt8.ofNat n]
      else if n ≤ 2047 then [UInt8.ofNat (n / 64 % 32 + 192), UInt8.ofNat (n % 64 + 128)]
      else if n ≤ 65535 then
        [UInt8.ofNat (n / 4096 % 16 + 224), UInt8.ofNat (n / 64 % 64 + 128),
          UInt8.ofNat (n % 64 + 128)]
      else
        [UInt8.ofNat (n / 262144 % 8 + 240), UInt8.ofNat (n / 4096 % 64 + 128),
          UInt8.ofNat (n / 64 % 64 + 128), UInt8.ofNat (n % 64 + 128)] := by
  have hval : (Char.ofNat n).val.toNat = n := by
    have hnat := Char.toNat_ofNat n
    rwa [if_pos hvalid] at hnat
  unfold String.utf8EncodeChar
  rw [hval]

/-- The character at the front of its own bytes is found, with their number. -/
theorem leading?_utf8EncodeChar (c : Char) (rest : List UInt8) :
    leading? (String.utf8EncodeChar c ++ rest) = some (c, (String.utf8EncodeChar c).length) := by
  have hvalid : c.toNat < 0xD800 ∨ 0xDFFF < c.toNat ∧ c.toNat < 0x110000 := c.valid
  rw [← Char.ofNat_toNat c, utf8EncodeChar_ofNat hvalid]
  generalize c.toNat = n at hvalid
  by_cases h1 : n ≤ 127
  · have hb : UInt8.ofNat n < 0x80 := (byte_lt_iff (by omega) _).mpr (Nat.lt_succ_of_le h1)
    rw [if_pos h1]
    simp only [List.cons_append, List.nil_append, leading?, if_pos hb,
      toNat_byte (n := n) (by omega), List.length_cons, List.length_nil]
  rw [if_neg h1]
  by_cases h2 : n ≤ 2047
  · have hlead : n / 64 % 32 + 192 < 256 := by omega
    have hcode : (n / 64 % 32 + 192 - 0xC0) * 0x40 + n % 64 = n := by omega
    rw [if_pos h2]
    simp only [List.cons_append, List.nil_append, leading?, byte_lt_iff hlead, toNat_byte hlead]
    rw [if_neg (by simp), if_neg (by simp; omega), if_pos (by simp; omega)]
    simp only [continuation?_byte (n := n % 64) (by omega), Option.bind_eq_bind,
      Option.bind_some, hcode, List.length_cons, List.length_nil]
  rw [if_neg h2]
  by_cases h3 : n ≤ 65535
  · have hlead : n / 4096 % 16 + 224 < 256 := by omega
    have hcode : ((n / 4096 % 16 + 224 - 0xE0) * 0x40 + n / 64 % 64) * 0x40 + n % 64 = n := by
      omega
    have hscalar :
        (decide (0x800 ≤ n) && !(decide (0xD800 ≤ n) && decide (n < 0xE000))) = true := by
      simp only [Bool.and_eq_true, decide_eq_true_eq, Bool.not_eq_true', Bool.and_eq_false_iff,
        decide_eq_false_iff_not]
      omega
    rw [if_pos h3]
    simp only [List.cons_append, List.nil_append, leading?, byte_lt_iff hlead, toNat_byte hlead]
    rw [if_neg (by simp), if_neg (by simp), if_neg (by simp), if_pos (by simp; omega)]
    simp only [continuation?_byte (n := n % 64) (by omega),
      continuation?_byte (n := n / 64 % 64) (by omega), Option.bind_eq_bind, Option.bind_some,
      hcode, hscalar, if_true, List.length_cons, List.length_nil]
  · have hlead : n / 262144 % 8 + 240 < 256 := by omega
    have hcode : (((n / 262144 % 8 + 240 - 0xF0) * 0x40 + n / 4096 % 64) * 0x40 + n / 64 % 64) *
        0x40 + n % 64 = n := by omega
    have hplane : (decide (0x10000 ≤ n) && decide (n < 0x110000)) = true := by
      simp only [Bool.and_eq_true, decide_eq_true_eq]
      omega
    rw [if_neg h3]
    simp only [List.cons_append, List.nil_append, leading?, byte_lt_iff hlead, toNat_byte hlead]
    rw [if_neg (by simp), if_neg (by simp), if_neg (by simp), if_neg (by simp),
      if_pos (by simp; omega)]
    simp only [continuation?_byte (n := n % 64) (by omega),
      continuation?_byte (n := n / 64 % 64) (by omega),
      continuation?_byte (n := n / 4096 % 64) (by omega), Option.bind_eq_bind, Option.bind_some,
      hcode, hplane, if_true, List.length_cons, List.length_nil]

/-- What is found at the front of the bytes stands there. -/
theorem leading?_sound {bs : List UInt8} {c : Char} {n : Nat} (h : leading? bs = some (c, n)) :
    ∃ rest, bs = String.utf8EncodeChar c ++ rest := by
  cases bs with
  | nil => cases h
  | cons b bs =>
    unfold leading? at h
    dsimp only at h
    by_cases h1 : b < 0x80
    · have hb : b.toNat < 0x80 := h1
      rw [if_pos h1] at h
      obtain ⟨rfl, rfl⟩ := Prod.mk.inj (Option.some.inj h)
      rw [utf8EncodeChar_ofNat (by omega), if_pos (by omega), byte_eq rfl]
      exact ⟨bs, rfl⟩
    rw [if_neg h1] at h
    by_cases h2 : b < 0xC2
    · rw [if_pos h2] at h
      cases h
    rw [if_neg h2] at h
    have hb : 0xC2 ≤ b.toNat := Nat.le_of_not_lt h2
    by_cases h3 : b < 0xE0
    · have hb' : b.toNat < 0xE0 := h3
      rw [if_pos h3] at h
      rcases bs with _ | ⟨b1, bs⟩
      · cases h
      · cases hb1 : continuation? b1 <;> simp [hb1] at h
        obtain ⟨hn1, hb1⟩ := continuation?_eq_some_iff.mp hb1
        obtain ⟨rfl, rfl⟩ := h
        rw [utf8EncodeChar_ofNat (by omega), if_neg (by omega), if_pos (by omega),
          byte_eq (b := b) (by omega), byte_eq (b := b1) (by omega)]
        exact ⟨bs, rfl⟩
    rw [if_neg h3] at h
    have hb : 0xE0 ≤ b.toNat := Nat.le_of_not_lt h3
    by_cases h4 : b < 0xF0
    · have hb' : b.toNat < 0xF0 := h4
      rw [if_pos h4] at h
      rcases bs with _ | ⟨b1, _ | ⟨b2, bs⟩⟩
      · cases h
      · cases h
      · cases hb1 : continuation? b1 <;> cases hb2 : continuation? b2 <;> simp [hb1, hb2] at h
        obtain ⟨hn1, hb1⟩ := continuation?_eq_some_iff.mp hb1
        obtain ⟨hn2, hb2⟩ := continuation?_eq_some_iff.mp hb2
        obtain ⟨⟨hcode, hsurrogate⟩, rfl, rfl⟩ := h
        rw [utf8EncodeChar_ofNat (by omega), if_neg (by omega), if_neg (by omega),
          if_pos (by omega), byte_eq (b := b) (by omega), byte_eq (b := b1) (by omega),
          byte_eq (b := b2) (by omega)]
        exact ⟨bs, rfl⟩
    rw [if_neg h4] at h
    have hb : 0xF0 ≤ b.toNat := Nat.le_of_not_lt h4
    by_cases h5 : b < 0xF5
    · have hb' : b.toNat < 0xF5 := h5
      rw [if_pos h5] at h
      rcases bs with _ | ⟨b1, _ | ⟨b2, _ | ⟨b3, bs⟩⟩⟩
      · cases h
      · cases h
      · cases h
      · cases hb1 : continuation? b1 <;> cases hb2 : continuation? b2 <;>
          cases hb3 : continuation? b3 <;> simp [hb1, hb2, hb3] at h
        obtain ⟨hn1, hb1⟩ := continuation?_eq_some_iff.mp hb1
        obtain ⟨hn2, hb2⟩ := continuation?_eq_some_iff.mp hb2
        obtain ⟨hn3, hb3⟩ := continuation?_eq_some_iff.mp hb3
        obtain ⟨⟨hcode, hlast⟩, rfl, rfl⟩ := h
        rw [utf8EncodeChar_ofNat (by omega), if_neg (by omega), if_neg (by omega),
          if_neg (by omega), byte_eq (b := b) (by omega), byte_eq (b := b1) (by omega),
          byte_eq (b := b2) (by omega), byte_eq (b := b3) (by omega)]
        exact ⟨bs, rfl⟩
    rw [if_neg h5] at h
    cases h

/-- Decoding takes off one character with all its bytes. -/
theorem decode_utf8EncodeChar_append (c : Char) (rest : List UInt8) :
    decode (String.utf8EncodeChar c ++ rest) = c :: decode rest := by
  have hlead := leading?_utf8EncodeChar c rest
  cases hbytes : String.utf8EncodeChar c with
  | nil =>
    exact absurd hbytes String.utf8EncodeChar_ne_nil
  | cons b bs =>
    rw [hbytes] at hlead
    rw [List.cons_append] at hlead ⊢
    simp only [decode, segments, segmentsFrom, hlead, List.map_cons]
    rw [segmentsFrom_append (by simp) rest]

/-- The bytes of a text made of characters are those of the characters. -/
theorem bytes_ofChars (cs : List Char) : (ofChars cs).bytes = cs.flatMap String.utf8EncodeChar := by
  simp [ofChars, ofString, bytes, List.utf8Encode]

/-- Characters before other bytes are decoded first. -/
theorem decode_ofChars_append (cs : List Char) (rest : List UInt8) :
    decode ((ofChars cs).bytes ++ rest) = cs ++ decode rest := by
  rw [bytes_ofChars]
  induction cs with
  | nil => rfl
  | cons c cs ih =>
    rw [List.flatMap_cons, List.append_assoc, decode_utf8EncodeChar_append, ih, List.cons_append]

/-- The characters of a text made of characters are those characters. -/
@[simp] theorem chars_ofChars (cs : List Char) : (ofChars cs).chars = cs := by
  have hdecode := decode_ofChars_append cs []
  rwa [List.append_nil, decode_nil, List.append_nil] at hdecode

/-- Texts of characters are put together as the characters are. -/
theorem ofChars_append (cs ds : List Char) : ofChars (cs ++ ds) = ofChars cs ++ ofChars ds := by
  apply bytes_inj.mp
  rw [bytes_append, bytes_ofChars, bytes_ofChars, bytes_ofChars, List.flatMap_append]

/-- The text of a string is the text of its characters. -/
theorem ofString_eq_ofChars (s : String) : ofString s = ofChars s.toList := by
  rw [ofChars, String.ofList_toList]

/-- The empty text before another changes nothing. -/
theorem nil_append (t : Text) : ofString "" ++ t = t := by
  apply bytes_inj.mp
  rw [bytes_append]
  rfl

/-- The empty text after another changes nothing. -/
theorem append_nil (t : Text) : t ++ ofString "" = t := by
  apply bytes_inj.mp
  rw [bytes_append]
  exact List.append_nil t.bytes

/-- A line feed belongs to no longer sequence. -/
theorem leading?_append_newline (b : UInt8) (bs rest : List UInt8) :
    leading? (b :: (bs ++ newline :: rest)) = leading? (b :: bs) := by
  have hnone : continuation? newline = none := rfl
  unfold leading?
  dsimp only
  by_cases h1 : b < 0x80
  · rw [if_pos h1, if_pos h1]
  rw [if_neg h1, if_neg h1]
  by_cases h2 : b < 0xC2
  · rw [if_pos h2, if_pos h2]
  rw [if_neg h2, if_neg h2]
  by_cases h3 : b < 0xE0
  · rw [if_pos h3, if_pos h3]
    cases bs with
    | nil => rfl
    | cons b1 bs => rfl
  rw [if_neg h3, if_neg h3]
  by_cases h4 : b < 0xF0
  · rw [if_pos h4, if_pos h4]
    rcases bs with _ | ⟨b1, _ | ⟨b2, bs⟩⟩
    · cases rest <;> rfl
    · cases h : continuation? b1 <;> simp [h, hnone]
    · rfl
  rw [if_neg h4, if_neg h4]
  by_cases h5 : b < 0xF5
  · rw [if_pos h5, if_pos h5]
    rcases bs with _ | ⟨b1, _ | ⟨b2, _ | ⟨b3, bs⟩⟩⟩
    · rcases rest with _ | ⟨r, _ | ⟨q, rest⟩⟩ <;> rfl
    · cases h : continuation? b1 <;> cases rest <;> simp [h, hnone]
    · cases h : continuation? b1 <;> cases h' : continuation? b2 <;> simp [h, h', hnone]
    · rfl
  rw [if_neg h5, if_neg h5]

/-- A character beyond ASCII has the code it was made of. -/
theorem le_toNat_ofNat {n : Nat} (hn : 0x80 ≤ n) (hvalid : n < 0xD800 ∨ 0xDFFF < n ∧ n < 0x110000) :
    0x80 ≤ (Char.ofNat n).toNat := by
  rw [Char.toNat_ofNat, if_pos hvalid]
  exact hn

/-- A character is read from its ASCII byte, or is none of ASCII and is read from bytes that are
there. -/
theorem leading?_cases {b : UInt8} {bs : List UInt8} {c : Char} {n : Nat}
    (h : leading? (b :: bs) = some (c, n)) :
    (b < 0x80 ∧ c = Char.ofNat b.toNat ∧ n = 1) ∨ (0x80 ≤ c.toNat ∧ n ≤ bs.length + 1) := by
  obtain ⟨rest, hbytes⟩ := leading?_sound h
  have hn : (String.utf8EncodeChar c).length = n := by
    rw [hbytes, leading?_utf8EncodeChar] at h
    exact (Prod.mk.inj (Option.some.inj h)).2
  by_cases hc : c.toNat < 0x80
  · refine .inl ?_
    have hvalid : c.toNat < 0xD800 ∨ 0xDFFF < c.toNat ∧ c.toNat < 0x110000 := c.valid
    have hone : String.utf8EncodeChar c = [UInt8.ofNat c.toNat] := by
      conv_lhs => rw [← Char.ofNat_toNat c]
      rw [utf8EncodeChar_ofNat hvalid, if_pos (Nat.le_of_lt_succ hc)]
    rw [hone] at hbytes hn
    obtain ⟨rfl, -⟩ := List.cons.inj hbytes
    refine ⟨(byte_lt_iff (by omega) _).mpr hc, ?_, hn.symm⟩
    rw [toNat_byte (by omega), Char.ofNat_toNat]
  · have hlength := congrArg List.length hbytes
    rw [List.length_append, List.length_cons, hn] at hlength
    exact .inr ⟨Nat.le_of_not_lt hc, by omega⟩

/-- A character takes bytes that are there. -/
theorem leading?_le {b : UInt8} {bs : List UInt8} {c : Char} {n : Nat}
    (h : leading? (b :: bs) = some (c, n)) : n ≤ bs.length + 1 := by
  rcases leading?_cases h with ⟨-, -, rfl⟩ | ⟨-, hle⟩
  · omega
  · exact hle

/-- An ASCII character that is read from some bytes is one of them. -/
theorem mem_of_mem_segmentsFrom {skip : Nat} {bs : List UInt8} {x : Segment}
    (h : x ∈ segmentsFrom skip bs) (hascii : x.char.toNat < 0x80) :
    UInt8.ofNat x.char.toNat ∈ bs := by
  induction bs generalizing skip with
  | nil => cases h
  | cons b bs ih =>
    cases skip with
    | succ skip => exact List.mem_cons_of_mem b (ih h)
    | zero =>
      rw [segmentsFrom] at h
      cases hlead : leading? (b :: bs) with
      | none =>
        rw [hlead] at h
        rcases List.mem_cons.mp h with rfl | hlater
        · have hreplaced : ¬replacement.toNat < 0x80 := by decide
          exact absurd hascii hreplaced
        · exact List.mem_cons_of_mem b (ih hlater)
      | some found =>
        obtain ⟨c, n⟩ := found
        rw [hlead] at h
        rcases List.mem_cons.mp h with rfl | hlater
        · rcases leading?_cases hlead with ⟨hb, rfl, -⟩ | ⟨hc, -⟩
          · have hb' : b.toNat < 0x80 := hb
            rw [Char.toNat_ofNat, if_pos (.inl (by omega)), UInt8.ofNat_toNat]
            exact List.mem_cons_self
          · exact absurd hascii (Nat.not_lt.mpr hc)
        · exact List.mem_cons_of_mem b (ih hlater)

/-- An ASCII character of some bytes is one of them. -/
theorem mem_of_mem_decode {bs : List UInt8} {c : Char} (h : c ∈ decode bs) (hc : c.toNat < 0x80) :
    UInt8.ofNat c.toNat ∈ bs := by
  obtain ⟨x, hx, rfl⟩ := List.mem_map.mp h
  exact mem_of_mem_segmentsFrom hx hc

/-- Bytes before a line feed are decoded on their own. -/
theorem segmentsFrom_append_newline {skip : Nat} {bs : List UInt8} (h : skip ≤ bs.length)
    (rest : List UInt8) : segmentsFrom skip (bs ++ newline :: rest) =
      segmentsFrom skip bs ++ segmentsFrom 0 (newline :: rest) := by
  induction bs generalizing skip with
  | nil =>
    obtain rfl : skip = 0 := Nat.le_zero.mp h
    rfl
  | cons b bs ih =>
    cases skip with
    | succ skip => exact ih (Nat.le_of_succ_le_succ h)
    | zero =>
      rw [List.cons_append, segmentsFrom, segmentsFrom, leading?_append_newline]
      cases hlead : leading? (b :: bs) with
      | none => simp [ih (Nat.zero_le _)]
      | some found =>
        obtain ⟨c, n⟩ := found
        have hle := leading?_le hlead
        have hskip : n - 1 ≤ bs.length := by omega
        have htake : (b :: (bs ++ newline :: rest)).take n = (b :: bs).take n := by
          rw [← List.cons_append, List.take_append_of_le_length hle]
        simp [ih hskip, htake]

/-- A line feed stands between the characters before it and the characters after it. -/
theorem decode_append_newline (bs rest : List UInt8) :
    decode (bs ++ newline :: rest) = decode bs ++ '\n' :: decode rest := by
  have hnewline : decode (newline :: rest) = '\n' :: decode rest :=
    decode_cons_ascii (by decide) rest
  rw [← hnewline, decode, segments, segmentsFrom_append_newline (Nat.zero_le _), List.map_append]
  rfl

/-- Only the carriage return has the byte of one. -/
theorem eq_of_carriageReturn_mem {c : Char} (h : carriageReturn ∈ String.utf8EncodeChar c) :
    c = '\r' := by
  have hbyte : ∀ k, k < 256 → carriageReturn = UInt8.ofNat k → k = 13 := by
    intro k hk heq
    have hnat := congrArg UInt8.toNat heq
    rw [toNat_byte hk] at hnat
    exact hnat.symm
  have hvalid : c.toNat < 0xD800 ∨ 0xDFFF < c.toNat ∧ c.toNat < 0x110000 := c.valid
  rw [← Char.ofNat_toNat c] at h ⊢
  rw [utf8EncodeChar_ofNat hvalid] at h
  generalize c.toNat = n at h
  by_cases h1 : n ≤ 127
  · rw [if_pos h1, List.mem_singleton] at h
    rw [hbyte n (by omega) h]
  -- All bytes of a longer encoding are above the ASCII range.
  · rw [if_neg h1] at h
    split at h
    · simp only [List.mem_cons, List.not_mem_nil, or_false] at h
      rcases h with h | h
      all_goals have hk := hbyte _ (by omega) h; omega
    · split at h
      · simp only [List.mem_cons, List.not_mem_nil, or_false] at h
        rcases h with h | h | h
        all_goals have hk := hbyte _ (by omega) h; omega
      · simp only [List.mem_cons, List.not_mem_nil, or_false] at h
        rcases h with h | h | h | h
        all_goals have hk := hbyte _ (by omega) h; omega

/-- The bytes of a character other than the carriage return are kept. -/
theorem filter_utf8EncodeChar {c : Char} (hc : c ≠ '\r') :
    (String.utf8EncodeChar c).filter (· ≠ carriageReturn) = String.utf8EncodeChar c := by
  refine List.filter_eq_self.mpr fun b hb => decide_eq_true fun heq => ?_
  subst heq
  exact hc (eq_of_carriageReturn_mem hb)

/-- Carriage returns are dropped from the bytes as from the characters. -/
theorem filter_bytes_ofChars (cs : List Char) :
    (ofChars cs).bytes.filter (· ≠ carriageReturn) =
      (ofChars (cs.filter (· ≠ '\r'))).bytes := by
  rw [bytes_ofChars, bytes_ofChars]
  induction cs with
  | nil => rfl
  | cons c cs ih =>
    rw [List.flatMap_cons, List.filter_append, ih]
    by_cases hc : c = '\r'
    · subst hc
      rfl
    · rw [filter_utf8EncodeChar hc, List.filter_cons_of_pos (by simpa using hc), List.flatMap_cons]

/-- Lists are cut in one way at the first separator. -/
theorem cut_inj {α : Type} {sep : α} {xs ys rest rest' : List α} (hxs : sep ∉ xs) (hys : sep ∉ ys)
    (h : xs ++ sep :: rest = ys ++ sep :: rest') : xs = ys ∧ rest = rest' := by
  rcases List.append_eq_append_iff.mp h with ⟨more, rfl, hmore⟩ | ⟨more, rfl, hmore⟩
  · cases more with
    | nil => exact ⟨(List.append_nil _).symm, (List.cons.inj hmore).2⟩
    | cons c more =>
      obtain ⟨rfl, -⟩ := List.cons.inj hmore
      simp at hys
  · cases more with
    | nil => exact ⟨List.append_nil _, (List.cons.inj hmore).2.symm⟩
    | cons c more =>
      obtain ⟨rfl, -⟩ := List.cons.inj hmore
      simp at hxs

/-- Several texts put together start with the first and the separator. -/
theorem join_cons (sep t : Text) {rest : List Text} (h : rest ≠ []) :
    join sep (t :: rest) = t ++ sep ++ join sep rest := by
  cases rest with
  | nil => exact absurd rfl h
  | cons u rest => rfl

end SymCalc.Text
