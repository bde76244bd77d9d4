import ClauseSearch.Text.Utf8
import Mathlib.Data.Char

/-! Reading UTF-8 undoes writing it. A character is read from bytes exactly if they begin with its encoding,
so bytes without an error are the encodings, one after another, of the characters read from them. -/

namespace ClauseSearch.Utf8

variable {b : UInt8} {rest bytes : List UInt8} {c : Char} {text : List Char} {n count payload least : Nat}

/-! ### One character -/

theorem continuation?_eq_some {bits : Nat} :
    continuation? b = some bits ↔ bits < 64 ∧ b = UInt8.ofNat (bits + 128) := by
  have hb := b.toNat_lt
  have hbyte : b = UInt8.ofNat (bits + 128) ↔ b.toNat = (bits + 128) % 256 := by
    rw [← UInt8.toNat_inj, UInt8.toNat_ofNat']
  unfold continuation?
  rw [hbyte, Option.ite_none_right_eq_some, Option.some.injEq]
  omega

/-- What follows the payload of a first byte, with the bytes that hold it. -/
theorem extend?_succ_eq_some : extend? payload (count + 1) bytes = some n ↔
    ∃ bits tail, bits < 64 ∧ bytes = UInt8.ofNat (bits + 128) :: tail ∧
      extend? (payload * 64 + bits) count tail = some n := by
  cases bytes with
  | nil => simp [extend?]
  | cons b tail =>
    rw [extend?, Option.bind_eq_some_iff]
    constructor
    · rintro ⟨bits, hbits, hn⟩
      obtain ⟨hlt, rfl⟩ := continuation?_eq_some.1 hbits
      exact ⟨bits, tail, hlt, rfl, hn⟩
    · rintro ⟨bits, tail, hlt, hbytes, hn⟩
      obtain ⟨rfl, rfl⟩ := List.cons.inj hbytes
      exact ⟨bits, continuation?_eq_some.2 ⟨hlt, rfl⟩, hn⟩

/-- The four lengths of a character, with the bits that its first byte carries. -/
theorem announced?_eq_some : announced? b = some (count, payload, least) ↔
    (payload < 128 ∧ b = UInt8.ofNat payload ∧ count = 0 ∧ least = 0) ∨
    (payload < 32 ∧ b = UInt8.ofNat (payload + 192) ∧ count = 1 ∧ least = 128) ∨
    (payload < 16 ∧ b = UInt8.ofNat (payload + 224) ∧ count = 2 ∧ least = 2048) ∨
    (payload < 8 ∧ b = UInt8.ofNat (payload + 240) ∧ count = 3 ∧ least = 65536) := by
  have hb := b.toNat_lt
  have hbyte : ∀ k, b = UInt8.ofNat k ↔ b.toNat = k % 256 := fun k => by
    rw [← UInt8.toNat_inj, UInt8.toNat_ofNat']
  simp only [hbyte, announced?]
  split
  · simp only [Option.some.injEq, Prod.mk.injEq]
    omega
  · split
    · simp only [Option.some.injEq, Prod.mk.injEq]
      omega
    · split
      · simp only [Option.some.injEq, Prod.mk.injEq]
        omega
      · split
        · simp only [Option.some.injEq, Prod.mk.injEq]
          omega
        · simp only [reduceCtorEq, false_iff]
          omega

theorem val_ofNat (h : n.isValidChar) : (Char.ofNat n).val.toNat = n := by
  rw [Char.ofNat, dif_pos h]
  rfl

/-- A character read begins the bytes with its encoding, and what is skipped is the rest of the encoding. -/
theorem encode_of_char? (h : char? b rest = some (c, count)) :
    String.utf8EncodeChar c ++ rest.drop count = b :: rest := by
  obtain ⟨⟨length, payload, least⟩, hfirst, h⟩ := Option.bind_eq_some_iff.1 h
  obtain ⟨n, hn, h⟩ := Option.bind_eq_some_iff.1 h
  obtain ⟨⟨hleast, hvalid⟩, h⟩ := Option.ite_none_right_eq_some.1 h
  cases h
  unfold String.utf8EncodeChar
  simp only [val_ofNat hvalid]
  -- The payloads are the digits of the code point in base 64, and the encoding divides them out again.
  rcases announced?_eq_some.1 hfirst with ⟨hp, rfl, rfl, rfl⟩ | ⟨hp, rfl, rfl, rfl⟩ |
    ⟨hp, rfl, rfl, rfl⟩ | ⟨hp, rfl, rfl, rfl⟩
  · obtain rfl : payload = n := Option.some.inj hn
    rw [if_pos (by omega)]
    rfl
  · obtain ⟨x, tail, hx, rfl, hx'⟩ := extend?_succ_eq_some.1 hn
    obtain rfl : payload * 64 + x = n := Option.some.inj hx'
    have h1 : (payload * 64 + x) / 64 % 32 = payload := by omega
    have h2 : (payload * 64 + x) % 64 = x := by omega
    rw [if_neg (by omega), if_pos (by omega), h1, h2]
    rfl
  · obtain ⟨x, _, hx, rfl, hx'⟩ := extend?_succ_eq_some.1 hn
    obtain ⟨y, tail, hy, rfl, hy'⟩ := extend?_succ_eq_some.1 hx'
    obtain rfl : (payload * 64 + x) * 64 + y = n := Option.some.inj hy'
    have h1 : ((payload * 64 + x) * 64 + y) / 4096 % 16 = payload := by omega
    have h2 : ((payload * 64 + x) * 64 + y) / 64 % 64 = x := by omega
    have h3 : ((payload * 64 + x) * 64 + y) % 64 = y := by omega
    rw [if_neg (by omega), if_neg (by omega), if_pos (by omega), h1, h2, h3]
    rfl
  · obtain ⟨x, _, hx, rfl, hx'⟩ := extend?_succ_eq_some.1 hn
    obtain ⟨y, _, hy, rfl, hy'⟩ := extend?_succ_eq_some.1 hx'
    obtain ⟨z, tail, hz, rfl, hz'⟩ := extend?_succ_eq_some.1 hy'
    obtain rfl : ((payload * 64 + x) * 64 + y) * 64 + z = n := Option.some.inj hz'
    have h1 : (((payload * 64 + x) * 64 + y) * 64 + z) / 262144 % 8 = payload := by omega
    have h2 : (((payload * 64 + x) * 64 + y) * 64 + z) / 4096 % 64 = x := by omega
    have h3 : (((payload * 64 + x) * 64 + y) * 64 + z) / 64 % 64 = y := by omega
    have h4 : (((payload * 64 + x) * 64 + y) * 64 + z) % 64 = z := by omega
    rw [if_neg (by omega), if_neg (by omega), if_neg (by omega), h1, h2, h3, h4]
    rfl

/-- Where bytes begin with the encoding of a character, it is read, and what follows is left. -/
theorem char?_of_encode {tail : List UInt8} (h : String.utf8EncodeChar c ++ tail = b :: rest) :
    ∃ count, char? b rest = some (c, count) ∧ rest.drop count = tail := by
  have hvalid : c.toNat.isValidChar := c.valid
  have hread : ∀ {length payload least}, announced? b = some (length, payload, least) →
      extend? payload length rest = some c.toNat → least ≤ c.toNat →
      char? b rest = some (c, length) := by
    intro length payload least hfirst hrest hleast
    simp only [char?, hfirst, hrest, Option.bind_eq_bind, Option.bind_some, Char.ofNat_toNat]
    exact if_pos ⟨hleast, hvalid⟩
  unfold String.utf8EncodeChar at h
  simp only [Char.toNat_val] at h
  generalize hn : c.toNat = n at *
  split at h
  · obtain ⟨rfl, rfl⟩ := List.cons.inj h
    exact ⟨0, hread (announced?_eq_some.2 (.inl ⟨by omega, rfl, rfl, rfl⟩)) rfl (by omega), rfl⟩
  · split at h
    · obtain ⟨rfl, rfl⟩ := List.cons.inj h
      refine ⟨1, hread (announced?_eq_some.2 (.inr (.inl ⟨by omega, rfl, rfl, rfl⟩))) ?_ (by omega), rfl⟩
      refine extend?_succ_eq_some.2 ⟨_, _, by omega, rfl, congrArg some ?_⟩
      omega
    · split at h
      · obtain ⟨rfl, rfl⟩ := List.cons.inj h
        refine ⟨2, hread (announced?_eq_some.2 (.inr (.inr (.inl ⟨by omega, rfl, rfl, rfl⟩)))) ?_
          (by omega), rfl⟩
        refine extend?_succ_eq_some.2 ⟨_, _, by omega, rfl, ?_⟩
        refine extend?_succ_eq_some.2 ⟨_, _, by omega, rfl, congrArg some ?_⟩
        omega
      · obtain ⟨rfl, rfl⟩ := List.cons.inj h
        refine ⟨3, hread (announced?_eq_some.2 (.inr (.inr (.inr ⟨by omega, rfl, rfl, rfl⟩)))) ?_
          (by omega), rfl⟩
        refine extend?_succ_eq_some.2 ⟨_, _, by omega, rfl, ?_⟩
        refine extend?_succ_eq_some.2 ⟨_, _, by omega, rfl, ?_⟩
        refine extend?_succ_eq_some.2 ⟨_, _, by omega, rfl, congrArg some ?_⟩
        rcases hvalid with h | ⟨-, h⟩ <;> omega

/-! ### Texts -/

theorem decodeOnto_eq (done : List (Option Char)) (skip : Nat) (bytes : List UInt8) :
    decodeOnto done skip bytes = done.reverse ++ decodeOnto [] skip bytes := by
  induction bytes generalizing done skip with
  | nil => simp [decodeOnto]
  | cons b rest ih =>
    cases skip with
    | succ skip => exact ih done skip
    | zero =>
      simp only [decodeOnto]
      split
      · rename_i c count _
        rw [ih (some c :: done), ih [some c], List.reverse_cons, List.append_assoc]
        rfl
      · rw [ih (none :: done), ih [none], List.reverse_cons, List.append_assoc]
        rfl

theorem decodeOnto_skip (skip : Nat) (bytes : List UInt8) :
    decodeOnto [] skip bytes = decode (bytes.drop skip) := by
  induction bytes generalizing skip with
  | nil => simp [decode, decodeOnto]
  | cons b rest ih =>
    cases skip with
    | zero => rfl
    | succ skip => exact ih skip

theorem decode_cons_of_some (h : char? b rest = some (c, count)) :
    decode (b :: rest) = some c :: decode (rest.drop count) := by
  simp only [decode, decodeOnto, h]
  rw [decodeOnto_eq, decodeOnto_skip]
  rfl

theorem decode_cons_of_none (h : char? b rest = none) : decode (b :: rest) = none :: decode rest := by
  simp only [decode, decodeOnto, h]
  rw [decodeOnto_eq]
  rfl

theorem strict?_cons_eq_some : strict? (b :: rest) = some text ↔
    ∃ c count more, char? b rest = some (c, count) ∧ strict? (rest.drop count) = some more ∧
      text = c :: more := by
  unfold strict?
  cases hchar : char? b rest with
  | none => simp [decode_cons_of_none hchar]
  | some read =>
    obtain ⟨c, count⟩ := read
    rw [decode_cons_of_some hchar, List.mapM_cons, id_eq, Option.bind_eq_bind, Option.bind_some]
    constructor
    · intro h
      obtain ⟨more, hmore, h⟩ := Option.bind_eq_some_iff.1 h
      exact ⟨c, count, more, rfl, hmore, (Option.some.inj h).symm⟩
    · rintro ⟨c', count', more, heq, hmore, rfl⟩
      cases heq
      exact Option.bind_eq_some_iff.2 ⟨more, hmore, rfl⟩

/-- Bytes can be read as a text exactly if they are its encoding. -/
theorem strict?_eq_some : strict? bytes = some text ↔ text.flatMap String.utf8EncodeChar = bytes := by
  induction text generalizing bytes with
  | nil =>
    cases bytes with
    | nil => exact iff_of_true rfl rfl
    | cons b rest => simp [strict?_cons_eq_some]
  | cons c more ih =>
    rw [List.flatMap_cons]
    cases bytes with
    | nil => simp [strict?, decode, decodeOnto, String.utf8EncodeChar_ne_nil]
    | cons b rest =>
      rw [strict?_cons_eq_some]
      constructor
      · rintro ⟨c', count, more', hchar, hmore, htext⟩
        obtain ⟨rfl, rfl⟩ := List.cons.inj htext
        rw [ih.1 hmore]
        exact encode_of_char? hchar
      · intro h
        obtain ⟨count, hchar, htail⟩ := char?_of_encode h
        exact ⟨c, count, more, hchar, ih.2 htail.symm, rfl⟩

end ClauseSearch.Utf8
