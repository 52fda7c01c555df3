import Uplift.Text

namespace Uplift.Text

set_option autoImplicit true

theorem ofChars_cons (c : Char) (cs : List Char) :
    ofChars (c :: cs) = String.utf8EncodeChar c ++ ofChars cs :=
  List.flatMap_cons

theorem ofChars_append (cs ds : List Char) : ofChars (cs ++ ds) = ofChars cs ++ ofChars ds :=
  List.flatMap_append

theorem ofNat_lt (h : n < 256) (b : UInt8) : UInt8.ofNat n < b ↔ n < b.toNat := by
  rw [UInt8.lt_iff_toNat_lt, UInt8.toNat_ofNat', Nat.mod_eq_of_lt h]

theorem continuation?_ofNat (n : Nat) :
    continuation? (UInt8.ofNat (n % 64 + 128)) = some (n % 64) := by
  have hn : n % 64 < 64 := Nat.mod_lt n (by decide)
  rw [continuation?, UInt8.toNat_ofNat_of_lt' (show n % 64 + 128 < 256 by omega), if_pos (by omega)]
  congr 1
  omega

theorem scalar?_eq {rest : List UInt8} (t : List Nat) (hrest : rest.mapM continuation? = some t)
    (hv : t.foldl (fun acc x => acc * 64 + x) lead = c.val.toNat) (hl : least ≤ c.val.toNat) :
    scalar? least lead rest = some c := by
  have hvalid : (t.foldl (fun acc x => acc * 64 + x) lead).isValidChar := by
    rw [hv]
    exact c.valid
  rw [scalar?, hrest, Option.bind_eq_bind, Option.bind_some]
  rw [dif_pos ⟨hvalid, hv ▸ hl⟩]
  apply congrArg some
  apply Char.ext
  exact UInt32.toNat_inj.1 hv

theorem decodeOnto_ascii (h : n < 128) (done : List Char) (rest : Text) :
    decodeOnto done (UInt8.ofNat n :: rest) = decodeOnto (Char.ofNat n :: done) rest := by
  rw [decodeOnto.eq_def]
  simp only [ofNat_lt (Nat.lt_trans h (by decide : 128 < 256)), UInt8.reduceToNat]
  rw [if_pos (by omega), UInt8.toNat_ofNat_of_lt' (show n < 256 by omega)]

theorem decodeOnto_two (h : n < 32) (hc : scalar? 0x80 n [x] = some c) (done : List Char)
    (rest : Text) :
    decodeOnto done (UInt8.ofNat (n + 192) :: x :: rest) = decodeOnto (c :: done) rest := by
  have hn : (n + 192) % 32 = n := by omega
  rw [decodeOnto.eq_def]
  simp only [ofNat_lt (show n + 192 < 256 by omega),
    UInt8.toNat_ofNat_of_lt' (show n + 192 < 256 by omega), hn, hc, UInt8.reduceToNat]
  rw [if_neg (by omega), if_neg (by omega), if_pos (by omega)]

theorem decodeOnto_three (h : n < 16) (hc : scalar? 0x800 n [x, y] = some c) (done : List Char)
    (rest : Text) :
    decodeOnto done (UInt8.ofNat (n + 224) :: x :: y :: rest) = decodeOnto (c :: done) rest := by
  have hn : (n + 224) % 16 = n := by omega
  rw [decodeOnto.eq_def]
  simp only [ofNat_lt (show n + 224 < 256 by omega),
    UInt8.toNat_ofNat_of_lt' (show n + 224 < 256 by omega), hn, hc, UInt8.reduceToNat]
  rw [if_neg (by omega), if_neg (by omega), if_neg (by omega), if_pos (by omega)]

theorem decodeOnto_four (h : n < 8) (hc : scalar? 0x10000 n [x, y, z] = some c) (done : List Char)
    (rest : Text) :
    decodeOnto done (UInt8.ofNat (n + 240) :: x :: y :: z :: rest) =
      decodeOnto (c :: done) rest := by
  have hn : (n + 240) % 8 = n := by omega
  rw [decodeOnto.eq_def]
  simp only [ofNat_lt (show n + 240 < 256 by omega),
    UInt8.toNat_ofNat_of_lt' (show n + 240 < 256 by omega), hn, hc, UInt8.reduceToNat]
  rw [if_neg (by omega), if_neg (by omega), if_neg (by omega), if_neg (by omega), if_pos (by omega)]

theorem decodeOnto_encodeChar (done : List Char) (c : Char) (rest : Text) :
    decodeOnto done (String.utf8EncodeChar c ++ rest) = decodeOnto (c :: done) rest := by
  obtain ⟨v, hv⟩ : ∃ v, c.val.toNat = v := ⟨_, rfl⟩
  have hmax : v < 0x110000 := by
    have hvalid : c.val.toNat.isValidChar := c.valid
    rw [hv] at hvalid
    rcases hvalid with h | h
    · omega
    · exact h.2
  simp only [String.utf8EncodeChar, hv]
  split
  next h1 =>
    have hc : Char.ofNat v = c := by
      rw [← hv]
      exact Char.ofNat_toNat c
    rw [List.singleton_append, decodeOnto_ascii (by omega), hc]
  next h1 =>
  split
  next h2 =>
    refine decodeOnto_two (by omega) (scalar?_eq [v % 64] ?_ ?_ (by omega)) done rest
    · simp only [List.mapM_cons, List.mapM_nil, continuation?_ofNat, Option.pure_def,
        Option.bind_eq_bind, Option.bind_some]
    · simp only [hv, List.foldl_cons, List.foldl_nil]
      omega
  next h2 =>
  split
  next h3 =>
    refine decodeOnto_three (by omega) (scalar?_eq [v / 64 % 64, v % 64] ?_ ?_ (by omega)) done rest
    · simp only [List.mapM_cons, List.mapM_nil, continuation?_ofNat, Option.pure_def,
        Option.bind_eq_bind, Option.bind_some]
    · simp only [hv, List.foldl_cons, List.foldl_nil]
      omega
  next h3 =>
    refine decodeOnto_four (by omega)
      (scalar?_eq [v / 4096 % 64, v / 64 % 64, v % 64] ?_ ?_ (by omega)) done rest
    · simp only [List.mapM_cons, List.mapM_nil, continuation?_ofNat, Option.pure_def,
        Option.bind_eq_bind, Option.bind_some]
    · simp only [hv, List.foldl_cons, List.foldl_nil]
      omega

theorem decodeOnto_ofChars (done cs : List Char) :
    decodeOnto done (ofChars cs) = some (cs.reverse ++ done) := by
  induction cs generalizing done with
  | nil => rfl
  | cons c cs ih =>
    rw [ofChars, List.flatMap_cons, decodeOnto_encodeChar, ← ofChars, ih, List.reverse_cons,
      List.append_assoc, List.singleton_append]

theorem decode?_ofChars (cs : List Char) : decode? (ofChars cs) = some cs := by
  rw [decode?, decodeOnto_ofChars, Option.map_some, List.append_nil, List.reverse_reverse]

end Uplift.Text
