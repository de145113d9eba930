import EditHistory.Transport.Base64
import Mathlib.Tactic.Common

/-! Base64 gives back the bytes that were written in it. Groups of four symbols are read one by one; the
last one, padded or not, is read in a way of its own. -/
namespace EditHistory
namespace Base64

theorem symbol_ne_pad {v : Nat} (h : v < 64) : symbol v ≠ pad := by
  intro heq
  have hvalue : value? pad = some v := heq ▸ value?_symbol h
  cases hvalue

theorem readSymbol_symbol {v : Nat} (h : v < 64) (offset : Nat) : readSymbol (symbol v) offset = .ok v := by
  rw [readSymbol, value?_symbol h]

/-- What the last group reads as: its values and the padding behind them, which comes after two of them
at the earliest. -/
theorem readLast_symbols (vs : List Nat) (hvs : ∀ v ∈ vs, v < 64) (offset position pads : Nat)
    (hpads : pads = 0 ∨ 2 ≤ position + vs.length) :
    readLast offset position (vs.map symbol ++ List.replicate pads pad) = .ok (vs, pads) := by
  induction vs generalizing position with
  | nil =>
    cases pads with
    | zero => rfl
    | succ pads =>
      have hposition : 2 ≤ position := by simpa using hpads
      rw [List.map_nil, List.nil_append, List.replicate_succ, readLast, if_pos rfl]
      simp [hposition]
  | cons v vs ih =>
    have hv : v < 64 := hvs v (by simp)
    have hrest := ih (fun w hw => hvs w (by simp [hw])) (position + 1)
      (hpads.imp_right fun hle => by rw [List.length_cons] at hle; omega)
    rw [List.map_cons, List.cons_append, readLast, if_neg (symbol_ne_pad hv), readSymbol_symbol hv, hrest]
    rfl

/-! ## Groups of bytes -/

theorem first_byte (a : UInt8) (low : Nat) (h : low < 16) :
    (a.toNat / 4 * 4 + (a.toNat % 4 * 16 + low) / 16).toUInt8 = a := by
  have hvalue : a.toNat / 4 * 4 + (a.toNat % 4 * 16 + low) / 16 = a.toNat := by omega
  rw [hvalue]
  simp

theorem second_byte (b : UInt8) (high low : Nat) (h : low < 4) :
    ((high * 16 + b.toNat / 16) % 16 * 16 + (b.toNat % 16 * 4 + low) / 4).toUInt8 = b := by
  have hlt : b.toNat / 16 < 16 := by have := b.toNat_lt; omega
  have hvalue : (high * 16 + b.toNat / 16) % 16 * 16 + (b.toNat % 16 * 4 + low) / 4 = b.toNat := by omega
  rw [hvalue]
  simp

theorem third_byte (c : UInt8) (high : Nat) :
    ((high * 4 + c.toNat / 64) % 4 * 64 + c.toNat % 64).toUInt8 = c := by
  have hlt : c.toNat / 64 < 4 := by have := c.toNat_lt; omega
  have hvalue : (high * 4 + c.toNat / 64) % 4 * 64 + c.toNat % 64 = c.toNat := by omega
  rw [hvalue]
  simp

theorem decodeLast_one {v w : Nat} (hv : v < 64) (hw : w < 64) (hrest : w % 16 = 0) (offset : Nat) :
    decodeLast offset [symbol v, symbol w, pad, pad] = .ok [(v * 4 + w / 16).toUInt8] := by
  have hread : readLast offset 0 [symbol v, symbol w, pad, pad] = .ok ([v, w], 2) :=
    readLast_symbols [v, w] (by simp [hv, hw]) offset 0 2 (.inr (by simp))
  rw [decodeLast, hread]
  simp [bind, Except.bind, pure, Except.pure, hrest]

theorem decodeLast_two {v w x : Nat} (hv : v < 64) (hw : w < 64) (hx : x < 64) (hrest : x % 4 = 0)
    (offset : Nat) : decodeLast offset [symbol v, symbol w, symbol x, pad] =
      .ok [(v * 4 + w / 16).toUInt8, (w % 16 * 16 + x / 4).toUInt8] := by
  have hread : readLast offset 0 [symbol v, symbol w, symbol x, pad] = .ok ([v, w, x], 1) :=
    readLast_symbols [v, w, x] (by simp [hv, hw, hx]) offset 0 1 (.inr (by simp))
  rw [decodeLast, hread]
  simp [bind, Except.bind, pure, Except.pure, hrest]

theorem decodeLast_three {v w x y : Nat} (hv : v < 64) (hw : w < 64) (hx : x < 64) (hy : y < 64)
    (offset : Nat) : decodeLast offset [symbol v, symbol w, symbol x, symbol y] =
      .ok [(v * 4 + w / 16).toUInt8, (w % 16 * 16 + x / 4).toUInt8, (x % 4 * 64 + y).toUInt8] := by
  have hread : readLast offset 0 [symbol v, symbol w, symbol x, symbol y] = .ok ([v, w, x, y], 0) :=
    readLast_symbols [v, w, x, y] (by simp [hv, hw, hx, hy]) offset 0 0 (.inl rfl)
  rw [decodeLast, hread]
  simp [bind, Except.bind, pure, Except.pure]

/-! ## All bytes -/

/-- What holds of all symbols and of the padding holds of whatever bytes are written as. -/
theorem forall_mem_encode {P : UInt8 → Prop} (hsymbol : ∀ v < 64, P (symbol v)) (hpad : P pad)
    (bytes : Bytes) : ∀ b ∈ encode bytes, P b := by
  fun_induction encode bytes with
  | case1 => simp
  | case2 a =>
    have ha := a.toNat_lt
    simp only [List.forall_mem_cons]
    exact ⟨hsymbol _ (by omega), hsymbol _ (by omega), hpad, hpad, by simp⟩
  | case3 a b =>
    have ha := a.toNat_lt
    have hb := b.toNat_lt
    simp only [List.forall_mem_cons]
    exact ⟨hsymbol _ (by omega), hsymbol _ (by omega), hsymbol _ (by omega), hpad, by simp⟩
  | case4 a b c rest ih =>
    have ha := a.toNat_lt
    have hb := b.toNat_lt
    have hc := c.toNat_lt
    simp only [List.forall_mem_cons]
    exact ⟨hsymbol _ (by omega), hsymbol _ (by omega), hsymbol _ (by omega), hsymbol _ (by omega), ih⟩

theorem length_encode_mod (bytes : Bytes) : (encode bytes).length % 4 = 0 := by
  fun_induction encode bytes with
  | case1 => rfl
  | case2 a => simp
  | case3 a b => simp
  | case4 a b c rest ih =>
    rw [List.length_cons, List.length_cons, List.length_cons, List.length_cons]
    omega

theorem encode_ne_nil {bytes : Bytes} (h : bytes ≠ []) : encode bytes ≠ [] := by
  fun_cases encode bytes <;> simp_all

theorem decodeFrom_encode (offset : Nat) (bytes : Bytes) : decodeFrom offset (encode bytes) = .ok bytes := by
  fun_induction encode bytes generalizing offset with
  | case1 => rfl
  | case2 a =>
    have ha := a.toNat_lt
    have hfirst := first_byte a 0 (by omega)
    rw [Nat.add_zero] at hfirst
    refine (decodeLast_one (by omega) (by omega) (by omega) offset).trans ?_
    rw [hfirst]
  | case3 a b =>
    have ha := a.toNat_lt
    have hb := b.toNat_lt
    have hsecond := second_byte b (a.toNat % 4) 0 (by omega)
    rw [Nat.add_zero] at hsecond
    refine (decodeLast_two (by omega) (by omega) (by omega) (by omega) offset).trans ?_
    rw [first_byte a _ (by omega), hsecond]
  | case4 a b c rest ih =>
    have ha := a.toNat_lt
    have hb := b.toNat_lt
    have hc := c.toNat_lt
    cases hrest : encode rest with
    | nil =>
      obtain rfl : rest = [] := by
        by_contra hne
        exact encode_ne_nil hne hrest
      refine (decodeLast_three (by omega) (by omega) (by omega) (by omega) offset).trans ?_
      rw [first_byte a _ (by omega), second_byte b _ _ (by omega), third_byte]
    | cons e tail =>
      rw [decodeFrom, readSymbol_symbol (by omega), readSymbol_symbol (by omega),
        readSymbol_symbol (by omega), readSymbol_symbol (by omega), ← hrest, ih]
      simp only [bind, Except.bind, pure, Except.pure]
      rw [first_byte a _ (by omega), second_byte b _ _ (by omega), third_byte]

/-- Whatever is written is read back. -/
theorem decode_encode (bytes : Bytes) : decode (encode bytes) = .ok bytes := by
  rw [decode]
  split
  · rename_i hnone
    rw [List.getLast?_eq_none_iff] at hnone
    by_contra hne
    exact encode_ne_nil (fun heq => hne (by rw [heq])) hnone
  · rw [if_neg, decodeFrom_encode]
    simp [length_encode_mod]

end Base64
end EditHistory
