import Errata.File.Encoding
import Errata.Proofs.Text.Utf8

/-!
# Decoding and encoding

Bytes are refused for a zero among them and for nothing else. What they decode to has the same
bytes again in the encoding that was found, and that is UTF-8 whenever they are well-formed: Latin-1
has a character for every byte, and for every character up to 255 its byte.
-/
namespace Errata.Encoding

theorem latin1Byte?_eq_none_iff {c : Char} : latin1Byte? c = none ↔ 256 ≤ c.toNat := by
  simp [latin1Byte?]

theorem ofNat_latin1Byte {c : Char} {b : UInt8} (h : latin1Byte? c = some b) :
    Char.ofNat b.toNat = c := by
  unfold latin1Byte? at h
  split at h
  · next hc =>
    obtain rfl := Option.some.inj h
    rw [UInt8.toNat_ofNat', Nat.mod_eq_of_lt hc, Char.ofNat_toNat]
  · cases h

theorem latin1Byte?_ofNat (b : UInt8) : latin1Byte? (Char.ofNat b.toNat) = some b := by
  have hb : b.toNat < 256 := b.toNat_lt
  have hchar : (Char.ofNat b.toNat).toNat = b.toNat :=
    Utf8.toNat_charOfNat (by unfold Nat.isValidChar; omega)
  rw [latin1Byte?, hchar, if_pos hb, UInt8.ofNat_toNat]

theorem map_ofNat_latin1 {t : Text} {bytes : List UInt8} (h : t.mapM latin1Byte? = some bytes) :
    (bytes.map fun b => Char.ofNat b.toNat) = t := by
  induction t generalizing bytes with
  | nil =>
    obtain rfl := Option.some.inj h
    rfl
  | cons c t ih =>
    rw [List.mapM_cons] at h
    obtain ⟨b, hb, h⟩ := Option.bind_eq_some_iff.mp h
    obtain ⟨bytes, hbytes, h⟩ := Option.bind_eq_some_iff.mp h
    obtain rfl := Option.some.inj h
    rw [List.map_cons, ofNat_latin1Byte hb, ih hbytes]

theorem mapM_latin1Byte? (bs : List UInt8) :
    (bs.map fun b => Char.ofNat b.toNat).mapM latin1Byte? = some bs := by
  induction bs with
  | nil => rfl
  | cons b bs ih =>
    rw [List.map_cons, List.mapM_cons, latin1Byte?_ofNat, ih]
    rfl

theorem encode?_latin1_eq_some_iff {t : Text} {bytes : ByteArray} :
    latin1.encode? t = some bytes ↔ (bytes.data.toList.map fun b => Char.ofNat b.toNat) = t := by
  constructor
  · intro h
    obtain ⟨codes, hcodes, rfl⟩ := Option.map_eq_some_iff.mp h
    exact map_ofNat_latin1 hcodes
  · rintro rfl
    simp only [encode?, mapM_latin1Byte?, Option.map_some, Array.toArray_toList]

theorem encode?_eq_none_iff {e : Encoding} {t : Text} :
    e.encode? t = none ↔ e = .latin1 ∧ ∃ c ∈ t, 256 ≤ c.toNat := by
  cases e with
  | utf8 => simp [encode?]
  | latin1 =>
    have hmapM : t.mapM latin1Byte? = none ↔ ∃ c ∈ t, 256 ≤ c.toNat := by
      induction t with
      | nil => simp
      | cons c t ih =>
        rw [List.mapM_cons, List.exists_mem_cons_iff, ← ih, ← latin1Byte?_eq_none_iff]
        cases latin1Byte? c <;> cases t.mapM latin1Byte? <;> simp
    simp [encode?, hmapM]

theorem isSome_encode?_latin1_iff {t : Text} :
    (latin1.encode? t).isSome ↔ ∀ c ∈ t, c.toNat ≤ 0xFF := by
  rw [Option.isSome_iff_ne_none, ne_eq, encode?_eq_none_iff]
  grind

theorem encode?_utf8_eq_some_iff {t : Text} {bytes : ByteArray} :
    utf8.encode? t = some bytes ↔ Text.bytes t = bytes.data.toList := by
  rw [Text.encode?_utf8, Option.some.injEq, ByteArray.ext_iff, List.data_toByteArray,
    List.toArray_eq_iff]

theorem utf8Decode?_eq_some_iff {bytes : ByteArray} {cs : Array Char} :
    bytes.utf8Decode? = some cs ↔ utf8.encode? cs.toList = some bytes := by
  have hencode : utf8.encode? cs.toList = some cs.toList.utf8Encode := rfl
  rw [hencode, Option.some.injEq]
  constructor
  · intro h
    have hget := @ByteArray.utf8Encode_get_utf8Decode? bytes (by simp [h])
    simpa only [h, Option.get_some] using hget
  · rintro rfl
    exact List.utf8Decode?_utf8Encode

theorem utf8Decode?_eq_none_iff {bytes : ByteArray} :
    bytes.utf8Decode? = none ↔ ¬ Utf8.WellFormed bytes.data.toList := by
  rw [Utf8.wellFormed_iff, Option.eq_none_iff_forall_ne_some]
  constructor
  · rintro h ⟨t, ht⟩
    exact h t.toArray (utf8Decode?_eq_some_iff.mpr (encode?_utf8_eq_some_iff.mpr ht))
  · rintro h cs hcs
    exact h ⟨cs.toList, encode?_utf8_eq_some_iff.mp (utf8Decode?_eq_some_iff.mp hcs)⟩

theorem decode?_eq_none_iff {bytes : ByteArray} : decode? bytes = none ↔ 0 ∈ bytes.data.toList := by
  unfold decode?
  split
  · next h => simpa using h
  · next h =>
    have hzero : 0 ∉ bytes.data.toList := by simpa using h
    split <;> simp [hzero]

theorem decode?_eq_utf8_iff {bytes : ByteArray} {t : Text} :
    decode? bytes = some (t, .utf8) ↔ 0 ∉ bytes.data.toList ∧ utf8.encode? t = some bytes := by
  have hdecode : utf8.encode? t = some bytes ↔ bytes.utf8Decode? = some t.toArray :=
    utf8Decode?_eq_some_iff.symm
  rw [hdecode]
  unfold decode?
  split
  · simp_all
  · cases bytes.utf8Decode? <;> simp_all [← List.toArray_eq_iff, eq_comm]

theorem decode?_eq_latin1_iff {bytes : ByteArray} {t : Text} :
    decode? bytes = some (t, .latin1) ↔ 0 ∉ bytes.data.toList ∧
      ¬ Utf8.WellFormed bytes.data.toList ∧ latin1.encode? t = some bytes := by
  rw [encode?_latin1_eq_some_iff, ← utf8Decode?_eq_none_iff]
  unfold decode?
  split
  · simp_all
  · cases bytes.utf8Decode? <;> simp_all

/-- The text that is found is the one with these bytes, in UTF-8 wherever there is one. -/
theorem decode?_eq_some_iff {bytes : ByteArray} {t : Text} {e : Encoding} :
    decode? bytes = some (t, e) ↔ 0 ∉ bytes.data.toList ∧ e.encode? t = some bytes ∧
      (e = .utf8 ↔ Utf8.WellFormed bytes.data.toList) := by
  cases e with
  | utf8 =>
    have hform : utf8.encode? t = some bytes → Utf8.WellFormed bytes.data.toList :=
      fun h => Utf8.wellFormed_iff.mpr ⟨t, encode?_utf8_eq_some_iff.mp h⟩
    rw [decode?_eq_utf8_iff]
    tauto
  | latin1 =>
    rw [decode?_eq_latin1_iff]
    simp only [reduceCtorEq, false_iff]
    tauto

theorem text_of_decode_encode {e : Encoding} {t t' : Text} {bytes : ByteArray}
    (hencode : e.encode? t = some bytes) (hdecode : decode? bytes = some (t', e)) : t' = t := by
  obtain ⟨hzero, -, hform⟩ := decode?_eq_some_iff.mp hdecode
  have hsame := decode?_eq_some_iff.mpr ⟨hzero, hencode, hform⟩
  rw [hdecode] at hsame
  exact (Prod.mk.inj (Option.some.inj hsame)).1

end Errata.Encoding
