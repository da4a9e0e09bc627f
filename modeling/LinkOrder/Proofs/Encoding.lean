import LinkOrder.Markup.Event

namespace LinkOrder.Text

variable {c : Char} {s : String} {rest : Bytes}

theorem toNat_ofNat {n : Nat} (h : n < 256) : (UInt8.ofNat n).toNat = n :=
  UInt8.toNat_ofNat_of_lt' h

theorem continuation_eq (n : Nat) (h : n < 256) :
    continuation (UInt8.ofNat n) =
      if n < 0x80 then some (0, 0x80, 0xbf)
      else if n < 0xc2 then none
      else if n < 0xe0 then some (1, 0x80, 0xbf)
      else if n = 0xe0 then some (2, 0xa0, 0xbf)
      else if n = 0xed then some (2, 0x80, 0x9f)
      else if n < 0xf0 then some (2, 0x80, 0xbf)
      else if n = 0xf0 then some (3, 0x90, 0xbf)
      else if n < 0xf4 then some (3, 0x80, 0xbf)
      else if n = 0xf4 then some (3, 0x80, 0x8f)
      else none := by
  simp only [continuation, UInt8.lt_iff_toNat_lt, ← UInt8.toNat_inj, toNat_ofNat h]
  rfl

/-- A byte that continues a character, and what it adds to it. -/
theorem payload_tail (n : Nat) : payload (UInt8.ofNat (n % 64 + 128)) = n % 64 := by
  rw [payload, toNat_ofNat (by omega)]
  omega

theorem isContinuation_tail (n : Nat) : isContinuation (UInt8.ofNat (n % 64 + 128)) = true := by
  simp only [isContinuation, UInt8.le_iff_toNat_le, toNat_ofNat (show n % 64 + 128 < 256 by omega),
    Bool.and_eq_true, decide_eq_true_eq]
  constructor
  · simp
  · simp
    omega

section Front

variable {a b d e lo hi : UInt8}

theorem front_of_one (ha : continuation a = some (0, lo, hi)) (l : Bytes) :
    front a l = .char (.ofNat a.toNat) 0 := by
  simp only [front, ha]

theorem front_of_two (ha : continuation a = some (1, lo, hi)) (hb : (b < lo || hi < b) = false)
    (l : Bytes) : front a (b :: l) = .char (.ofNat (a.toNat % 32 * 64 + payload b)) 1 := by
  simp [front, ha, hb]

theorem front_of_three (ha : continuation a = some (2, lo, hi)) (hb : (b < lo || hi < b) = false)
    (hd : isContinuation d = true) (l : Bytes) :
    front a (b :: d :: l) =
      .char (.ofNat ((a.toNat % 16 * 64 + payload b) * 64 + payload d)) 2 := by
  simp [front, ha, hb, hd]

theorem front_of_four (ha : continuation a = some (3, lo, hi)) (hb : (b < lo || hi < b) = false)
    (hd : isContinuation d = true) (he : isContinuation e = true) (l : Bytes) :
    front a (b :: d :: e :: l) =
      .char (.ofNat (((a.toNat % 8 * 64 + payload b) * 64 + payload d) * 64 + payload e)) 3 := by
  simp [front, ha, hb, hd, he]

theorem within_range {n : Nat} (hlo : lo.toNat ≤ n) (hhi : n ≤ hi.toNat) :
    (UInt8.ofNat n < lo || hi < UInt8.ofNat n) = false := by
  have hn : n < 256 := Nat.lt_of_le_of_lt hhi hi.toNat_lt
  simp [UInt8.lt_iff_toNat_lt, toNat_ofNat hn, hlo, hhi]

variable {n : Nat}

theorem front_one (h : n ≤ 0x7f) (rest : Bytes) :
    front (UInt8.ofNat n) rest = .char (.ofNat n) 0 := by
  have ha : continuation (UInt8.ofNat n) = some (0, 0x80, 0xbf) := by
    rw [continuation_eq n (by omega), if_pos (by omega)]
  rw [front_of_one ha, toNat_ofNat (by omega)]

theorem front_two (h : 0x80 ≤ n) (h' : n ≤ 0x7ff) (rest : Bytes) :
    front (UInt8.ofNat (n / 64 % 32 + 192)) (UInt8.ofNat (n % 64 + 128) :: rest) =
      .char (.ofNat n) 1 := by
  have ha : continuation (UInt8.ofNat (n / 64 % 32 + 192)) = some (1, 0x80, 0xbf) := by
    rw [continuation_eq _ (by omega), if_neg (by omega), if_neg (by omega), if_pos (by omega)]
  have hsum : (n / 64 % 32 + 192) % 32 * 64 + n % 64 = n := by omega
  rw [front_of_two ha (within_range (by simp) (by simp; omega)), payload_tail,
    toNat_ofNat (by omega), hsum]

theorem front_three (h : 0x800 ≤ n) (h' : n ≤ 0xffff) (hn : n < 0xd800 ∨ 0xdfff < n) (rest : Bytes) :
    front (UInt8.ofNat (n / 4096 % 16 + 224))
        (UInt8.ofNat (n / 64 % 64 + 128) :: UInt8.ofNat (n % 64 + 128) :: rest) =
      .char (.ofNat n) 2 := by
  -- The numbers in between are no characters.
  have hsum : ((n / 4096 % 16 + 224) % 16 * 64 + n / 64 % 64) * 64 + n % 64 = n := by omega
  have hfront (lo hi : UInt8)
      (ha : continuation (UInt8.ofNat (n / 4096 % 16 + 224)) = some (2, lo, hi))
      (hlo : lo.toNat ≤ n / 64 % 64 + 128) (hhi : n / 64 % 64 + 128 ≤ hi.toNat) :
      front (UInt8.ofNat (n / 4096 % 16 + 224))
        (UInt8.ofNat (n / 64 % 64 + 128) :: UInt8.ofNat (n % 64 + 128) :: rest) =
      .char (.ofNat n) 2 := by
    rw [front_of_three ha (within_range hlo hhi) (isContinuation_tail n), payload_tail, payload_tail,
      toNat_ofNat (by omega), hsum]
  have hcont := continuation_eq (n / 4096 % 16 + 224) (by omega)
  rw [if_neg (by omega), if_neg (by omega), if_neg (by omega)] at hcont
  by_cases hfirst : n / 4096 % 16 + 224 = 0xe0
  · rw [if_pos hfirst] at hcont
    exact hfront _ _ hcont (by simp; omega) (by simp; omega)
  · rw [if_neg hfirst] at hcont
    by_cases hlast : n / 4096 % 16 + 224 = 0xed
    · rw [if_pos hlast] at hcont
      exact hfront _ _ hcont (by simp) (by simp; omega)
    · rw [if_neg hlast, if_pos (by omega)] at hcont
      exact hfront _ _ hcont (by simp) (by simp; omega)

theorem front_four (h : 0x10000 ≤ n) (h' : n < 0x110000) (rest : Bytes) :
    front (UInt8.ofNat (n / 262144 % 8 + 240))
        (UInt8.ofNat (n / 4096 % 64 + 128) :: UInt8.ofNat (n / 64 % 64 + 128) ::
          UInt8.ofNat (n % 64 + 128) :: rest) =
      .char (.ofNat n) 3 := by
  have hsum : (((n / 262144 % 8 + 240) % 8 * 64 + n / 4096 % 64) * 64 + n / 64 % 64) * 64 + n % 64 =
      n := by omega
  have hfront (lo hi : UInt8)
      (ha : continuation (UInt8.ofNat (n / 262144 % 8 + 240)) = some (3, lo, hi))
      (hlo : lo.toNat ≤ n / 4096 % 64 + 128) (hhi : n / 4096 % 64 + 128 ≤ hi.toNat) :
      front (UInt8.ofNat (n / 262144 % 8 + 240))
        (UInt8.ofNat (n / 4096 % 64 + 128) :: UInt8.ofNat (n / 64 % 64 + 128) ::
          UInt8.ofNat (n % 64 + 128) :: rest) = .char (.ofNat n) 3 := by
    rw [front_of_four ha (within_range hlo hhi) (isContinuation_tail _) (isContinuation_tail _),
      payload_tail, payload_tail, payload_tail, toNat_ofNat (by omega), hsum]
  have hcont := continuation_eq (n / 262144 % 8 + 240) (by omega)
  rw [if_neg (by omega), if_neg (by omega), if_neg (by omega), if_neg (by omega), if_neg (by omega),
    if_neg (by omega)] at hcont
  by_cases hfirst : n / 262144 % 8 + 240 = 0xf0
  · rw [if_pos hfirst] at hcont
    exact hfront _ _ hcont (by simp; omega) (by simp; omega)
  · rw [if_neg hfirst] at hcont
    by_cases hlast : n / 262144 % 8 + 240 < 0xf4
    · rw [if_pos hlast] at hcont
      exact hfront _ _ hcont (by simp) (by simp; omega)
    · rw [if_neg hlast, if_pos (by omega)] at hcont
      exact hfront _ _ hcont (by simp) (by simp; omega)

end Front

theorem front_utf8EncodeChar (c : Char) (rest : Bytes) :
    ∃ a l, String.utf8EncodeChar c = a :: l ∧ front a (l ++ rest) = .char c l.length := by
  have hvalid : c.toNat < 0xd800 ∨ 0xdfff < c.toNat ∧ c.toNat < 0x110000 := c.valid
  have hc (n : Nat) : Front.char (.ofNat c.toNat) n = .char c n := by rw [Char.ofNat_toNat]
  unfold String.utf8EncodeChar
  change ∃ a l, (if c.toNat ≤ 0x7f then _ else if c.toNat ≤ 0x7ff then _ else
    if c.toNat ≤ 0xffff then _ else _) = a :: l ∧ _
  split
  · next h => exact ⟨_, _, rfl, (front_one h rest).trans (hc 0)⟩
  · next h =>
    split
    · next h' => exact ⟨_, _, rfl, (front_two (by omega) h' rest).trans (hc 1)⟩
    · next h' =>
      split
      · next h'' => exact ⟨_, _, rfl, (front_three (by omega) h'' (by omega) rest).trans (hc 2)⟩
      · next h'' =>
        have hlo : 0x10000 ≤ c.toNat := by omega
        have hhi : c.toNat < 0x110000 := by omega
        exact ⟨_, _, rfl, (front_four hlo hhi rest).trans (hc 3)⟩

theorem decodeFrom_append (pos : Nat) (c : Char) (rest : Bytes) :
    decodeFrom pos (String.utf8EncodeChar c ++ rest) =
      (decodeFrom (pos + (String.utf8EncodeChar c).length) rest).map (c :: ·) := by
  obtain ⟨a, l, heq, hfront⟩ := front_utf8EncodeChar c rest
  rw [heq, List.cons_append, decodeFrom, hfront]
  simp [Nat.add_assoc]

@[simp] theorem encode_append (s t : String) : encode (s ++ t) = encode s ++ encode t := by
  simp [encode]

theorem encode_join (strings : List String) : encode (String.join strings) = strings.flatMap encode := by
  induction strings with
  | nil => rfl
  | cons s strings ih => simp [ih]

theorem decodeFrom_encode (pos : Nat) (l : List Char) :
    decodeFrom pos (l.flatMap String.utf8EncodeChar) = .ok l := by
  induction l generalizing pos with
  | nil => simp [decodeFrom]
  | cons c l ih =>
    rw [List.flatMap_cons, decodeFrom_append, ih]
    rfl

theorem decode_encode (s : String) : decode (encode s) = .ok s := by
  rw [decode, encode, decodeFrom_encode]
  simp [Except.map]

theorem encode_injective : Function.Injective encode := by
  intro s t h
  have hdecode := decode_encode s
  rw [h, decode_encode] at hdecode
  cases hdecode
  rfl

open Markup (byte)

theorem utf8EncodeChar_of_lt (h : c.toNat < 128) : String.utf8EncodeChar c = [byte c] := by
  have h' : c.val.toNat ≤ 127 := Nat.le_of_lt_succ h
  simp only [String.utf8EncodeChar, h', if_true]
  rfl

theorem le_of_mem_utf8EncodeChar {b : UInt8} (hc : 128 ≤ c.toNat)
    (h : b ∈ String.utf8EncodeChar c) : 128 ≤ b.toNat := by
  have hc' : ¬c.val.toNat ≤ 127 := Nat.not_le_of_lt hc
  simp only [String.utf8EncodeChar, hc', if_false] at h
  split at h
  · simp only [List.mem_cons, List.not_mem_nil, or_false] at h
    rcases h with rfl | rfl <;> rw [toNat_ofNat (by omega)] <;> omega
  · split at h
    · simp only [List.mem_cons, List.not_mem_nil, or_false] at h
      rcases h with rfl | rfl | rfl <;> rw [toNat_ofNat (by omega)] <;> omega
    · simp only [List.mem_cons, List.not_mem_nil, or_false] at h
      rcases h with rfl | rfl | rfl | rfl <;> rw [toNat_ofNat (by omega)] <;> omega

theorem toNat_byte (h : c.toNat < 128) : (byte c).toNat = c.toNat :=
  toNat_ofNat (by omega)

theorem byte_inj {c' : Char} (h : c.toNat < 128) (h' : c'.toNat < 128) :
    byte c = byte c' ↔ c = c' := by
  rw [← UInt8.toNat_inj, toNat_byte h, toNat_byte h', Char.toNat_inj]

theorem byte_mem_encode (hc : c.toNat < 128) : byte c ∈ encode s ↔ c ∈ s.toList := by
  rw [encode, List.mem_flatMap]
  constructor
  · rintro ⟨c', hc', hmem⟩
    by_cases h : c'.toNat < 128
    · rw [utf8EncodeChar_of_lt h, List.mem_singleton, byte_inj hc h] at hmem
      rwa [hmem]
    · have hle := le_of_mem_utf8EncodeChar (Nat.le_of_not_lt h) hmem
      rw [toNat_byte hc] at hle
      omega
  · intro h
    refine ⟨c, h, ?_⟩
    rw [utf8EncodeChar_of_lt hc]
    exact List.mem_cons_self

end LinkOrder.Text
