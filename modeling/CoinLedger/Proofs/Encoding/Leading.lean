import CoinLedger.Transaction.Basic

/-! What the first bytes of a transaction tell: whether it is a coinbase, and the first coin that it
spends. Both are read off at fixed places behind a count whose own width its first byte gives, so
nothing has to be assumed about lengths. -/
namespace CoinLedger

/-- The number that bytes spell, lowest byte first. -/
def littleEndianValue : Bytes → Nat
  | [] => 0
  | byte :: rest => byte.toNat + 256 * littleEndianValue rest

theorem littleEndianValue_littleEndian {width n : Nat} (h : n < Nat.pow 256 width) :
    littleEndianValue (littleEndian width n) = n := by
  induction width generalizing n with
  | zero =>
    simp only [Nat.pow] at h
    rw [littleEndian, littleEndianValue]
    omega
  | succ width ih =>
    rw [pow_256_succ] at h
    have hd : n / 256 < Nat.pow 256 width := by omega
    rw [littleEndian, littleEndianValue, ih hd, UInt8.toNat_ofNat']
    omega

theorem littleEndian_inj {width a b : Nat} (ha : a < Nat.pow 256 width)
    (hb : b < Nat.pow 256 width) (h : littleEndian width a = littleEndian width b) : a = b := by
  have hv := congrArg littleEndianValue h
  rwa [littleEndianValue_littleEndian ha, littleEndianValue_littleEndian hb] at hv

/-- How many bytes follow the first one of a count. -/
def bytesAfter (first : UInt8) : Nat :=
  if first < 0xfd then 0 else if first = 0xfd then 2 else if first = 0xfe then 4 else 8

theorem compactSize_eq_cons (n : Nat) :
    ∃ first rest, compactSize n = first :: rest ∧ rest.length = bytesAfter first := by
  rw [compactSize]
  split
  · refine ⟨UInt8.ofNat n, [], rfl, ?_⟩
    have hl : UInt8.ofNat n < 0xfd := by
      rw [UInt8.lt_iff_toNat_lt, UInt8.toNat_ofNat']
      simp only [UInt8.reduceToNat]
      omega
    rw [bytesAfter, if_pos hl, List.length_nil]
  · split
    · exact ⟨0xfd, littleEndian 2 n, rfl, by rw [length_littleEndian]; decide⟩
    · split
      · exact ⟨0xfe, littleEndian 4 n, rfl, by rw [length_littleEndian]; decide⟩
      · exact ⟨0xff, littleEndian 8 n, rfl, by rw [length_littleEndian]; decide⟩

/-- A count ends where its first byte says, whatever comes behind it. -/
theorem compactSize_append_cancel {m n : Nat} {x y : Bytes}
    (h : compactSize m ++ x = compactSize n ++ y) : x = y := by
  obtain ⟨first, rest, hm, hl⟩ := compactSize_eq_cons m
  obtain ⟨other, tail, hn, ht⟩ := compactSize_eq_cons n
  rw [hm, hn, List.cons_append, List.cons_append, List.cons.injEq] at h
  obtain ⟨hf, hr⟩ := h
  have hw : rest.length = tail.length := by rw [hl, ht, hf]
  exact (List.append_inj hr hw).2

namespace OutPoint

theorem length_encode (point : OutPoint) : point.encode.length = 36 := by
  rw [encode, List.length_append, point.txid.length_bytes, length_littleEndian]

theorem encode_inj {a b : OutPoint} (h : a.encode = b.encode) : a = b := by
  have hl : a.txid.bytes.length = b.txid.bytes.length := by
    rw [a.txid.length_bytes, b.txid.length_bytes]
  obtain ⟨ht, hi⟩ := List.append_inj h hl
  have hn := littleEndian_inj a.index.toNat_lt b.index.toNat_lt hi
  exact OutPoint.ext (Digest.ext ht) (UInt32.toNat_inj.mp hn)

end OutPoint

namespace Transaction

theorem isCoinbase_eq_of_encode_eq {t u : Transaction} (h : t.encode = u.encode) :
    t.isCoinbase = u.isCoinbase := by
  cases t with
  | coinbase outputs =>
    cases u with
    | coinbase others => rfl
    | spend inputs others => simp [encode] at h
  | spend inputs outputs =>
    cases u with
    | coinbase others => simp [encode] at h
    | spend others outs => rfl

/-- Spends with one byte form have one first prevout. -/
theorem head_prevouts_eq_of_encode_eq {t u : Transaction} (h : t.encode = u.encode)
    {a b : OutPoint} (ht : t.prevouts.head? = some a) (hu : u.prevouts.head? = some b) :
    a = b := by
  cases t with
  | coinbase outputs => cases ht
  | spend inputs outputs =>
    cases u with
    | coinbase others => cases hu
    | spend others outs =>
      cases inputs with
      | nil => cases ht
      | cons first rest =>
        cases others with
        | nil => cases hu
        | cons other tail =>
          have ha : first.prevout = a := Option.some.inj ht
          have hb : other.prevout = b := Option.some.inj hu
          have hc := (List.cons.inj h).2
          simp only [sizedList, List.append_assoc] at hc
          have hf := compactSize_append_cancel hc
          simp only [List.flatMap_cons, Input.encode, List.append_assoc] at hf
          have hl : first.prevout.encode.length = other.prevout.encode.length := by
            rw [OutPoint.length_encode, OutPoint.length_encode]
          rw [← ha, ← hb]
          exact OutPoint.encode_inj (List.append_inj hf hl).1

end Transaction
end CoinLedger
