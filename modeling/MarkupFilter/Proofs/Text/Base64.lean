import MarkupFilter.Text.DataUrl

/-!
# Spellings of bytes

Bytes that are spelled in groups of four symbols are read again, whatever blanks stand among the
symbols. Only a group of four is read: without the padding of a last group that is shorter, the
whole spelling is not read.

## Main definitions

* `Base64.unpadded` — the spelling of bytes without padding.
* `DataUrl.compact` — a payload without blanks.

## Main results

* `Base64.decode?_encode` — bytes are read as they were spelled.
* `Base64.unpadded_cases` — a spelling that lacks its padding is not read.
* `DataUrl.reveal?_append` — what is read of the payload of an address.
-/

set_option autoImplicit false

namespace MarkupFilter

namespace Base64

/-! ## Symbols -/

/-- The symbol for six bits stands for them. -/
theorem symbol?_symbol {n : Nat} (hn : n < 64) : symbol? (symbol n) = some n := by
  have hall : ∀ n < 64, symbol? (symbol n) = some n := by decide
  exact hall n hn

/-- No symbol is the sign for padding, or starts a reference. -/
theorem symbol_ne (n : Nat) : symbol n ≠ '=' ∧ symbol n ≠ '&' := by
  have hall : ∀ n < 64, symbol n ≠ '=' ∧ symbol n ≠ '&' := by decide
  by_cases hn : n < 64
  · exact hall n hn
  · have hlast : symbol n = '/' := by
      rw [symbol, if_neg (by omega), if_neg (by omega), if_neg (by omega), if_neg (by omega)]
    rw [hlast]
    decide

/-- A full group is read as the three bytes that it spells. -/
theorem full?_symbol {x y z : Nat} (hx : x < 256) (hy : y < 256) (hz : z < 256) :
    full? (symbol (x / 4)) (symbol (x % 4 * 16 + y / 16)) (symbol (y % 16 * 4 + z / 64))
      (symbol (z % 64)) = some [x, y, z] := by
  have hfirst : x / 4 * 4 + (x % 4 * 16 + y / 16) / 16 = x := by omega
  have hsecond : (x % 4 * 16 + y / 16) % 16 * 16 + (y % 16 * 4 + z / 64) / 4 = y := by omega
  have hthird : (y % 16 * 4 + z / 64) % 4 * 64 + z % 64 = z := by omega
  rw [full?, symbol?_symbol (by omega), symbol?_symbol (by omega), symbol?_symbol (by omega),
    symbol?_symbol (by omega)]
  dsimp only
  rw [hfirst, hsecond, hthird]

/-! ## Spellings -/

/-- **Bytes are read as they were spelled.** The induction is on their groups. -/
theorem decode?_encode {bytes : List Nat} (h : ∀ b ∈ bytes, b < 256) :
    decode? (encode bytes) = some bytes := by
  fun_induction encode bytes with
  | case1 => rfl
  | case2 x =>
    have hx : x < 256 := h x (by simp)
    have hpadded : padded? (symbol (x / 4)) (symbol (x % 4 * 16)) '=' = some [x] := by
      have hbits : x % 4 * 16 % 16 = 0 := by omega
      have hbyte : x / 4 * 4 + x % 4 * 16 / 16 = x := by omega
      rw [padded?, symbol?_symbol (by omega), symbol?_symbol (by omega)]
      dsimp only
      rw [if_pos rfl, if_pos hbits, hbyte]
    exact hpadded
  | case3 x y =>
    have hx : x < 256 := h x (by simp)
    have hy : y < 256 := h y (by simp)
    have hpadded : padded? (symbol (x / 4)) (symbol (x % 4 * 16 + y / 16)) (symbol (y % 16 * 4)) =
        some [x, y] := by
      have hbits : y % 16 * 4 % 4 = 0 := by omega
      have hfirst : x / 4 * 4 + (x % 4 * 16 + y / 16) / 16 = x := by omega
      have hsecond : (x % 4 * 16 + y / 16) % 16 * 16 + y % 16 * 4 / 4 = y := by omega
      rw [padded?, symbol?_symbol (by omega), symbol?_symbol (by omega)]
      dsimp only
      rw [if_neg (symbol_ne _).1, symbol?_symbol (by omega)]
      dsimp only
      rw [if_pos hbits, hfirst, hsecond]
    exact hpadded
  | case4 x y z rest ih =>
    have hfull := full?_symbol (h x (by simp)) (h y (by simp)) (h z (by simp))
    rw [decode?, if_neg (symbol_ne _).1, hfull, ih fun b hb => h b (by simp [hb])]
    rfl

/-- What is read comes in groups of four. -/
theorem length_of_decode? {cs : List Char} {bytes : List Nat} (h : decode? cs = some bytes) :
    cs.length % 4 = 0 := by
  fun_induction decode? cs generalizing bytes with
  | case1 => rfl
  | case2 a b c rest hrest =>
    simp only [List.isEmpty_iff.1 hrest, List.length_cons, List.length_nil]
  | case3 | case5 | case6 => cases h
  | case4 a b c d rest hd first more hfirst hmore ih =>
    have := ih hfirst
    simp only [List.length_cons]
    omega

/-- The spelling of bytes without its padding. -/
def unpadded (bytes : List Nat) : List Char :=
  (encode bytes).filter (· != '=')

/-- **A spelling that lacks its padding is not read.** -/
theorem unpadded_cases (bytes : List Nat) :
    unpadded bytes = encode bytes ∨ decode? (unpadded bytes) = none := by
  have hlength : unpadded bytes = encode bytes ∨ (unpadded bytes).length % 4 ≠ 0 := by
    have hsymbol : ∀ n, symbol n ≠ '=' := fun n => (symbol_ne n).1
    unfold unpadded
    fun_induction encode bytes with
    | case1 => exact .inl rfl
    | case2 x => exact .inr (by simp [hsymbol])
    | case3 x y => exact .inr (by simp [hsymbol])
    | case4 x y z rest ih =>
      rcases ih with heq | hne
      · exact .inl (by simp [hsymbol, heq])
      · exact .inr (by simp [hsymbol]; omega)
  refine hlength.imp_right fun hne => ?_
  cases hread : decode? (unpadded bytes) with
  | none => rfl
  | some read => exact absurd (length_of_decode? hread) hne

/-- A spelling holds no reference. -/
theorem amp_not_mem_encode (bytes : List Nat) : '&' ∉ encode bytes := by
  have hsymbol : ∀ n, '&' ≠ symbol n := fun n => (symbol_ne n).2.symm
  fun_induction encode bytes with
  | case1 => exact List.not_mem_nil
  | case2 x => simp [hsymbol]
  | case3 x y => simp [hsymbol]
  | case4 x y z rest ih => simp [hsymbol, ih]

end Base64

/-! ## Addresses -/

namespace DataUrl

/-- What has no comma stands before the first one. -/
theorem split?_append_of_not_mem {cs : List Char} (h : ',' ∉ cs) (rest : List Char) :
    split? (cs ++ rest) = (split? rest).map fun (header, payload) => (cs ++ header, payload) := by
  induction cs with
  | nil =>
    rw [List.nil_append]
    cases split? rest <;> rfl
  | cons c cs ih =>
    have hc : c ≠ ',' := fun heq => h (heq ▸ List.mem_cons_self ..)
    rw [List.cons_append, split?, if_neg hc, ih fun hmem => h (List.mem_cons_of_mem _ hmem)]
    cases split? rest <;> rfl

/-- The first comma ends the header. -/
theorem split?_append {header : List Char} (h : ',' ∉ header) (payload : List Char) :
    split? (header ++ ',' :: payload) = some (header, payload) := by
  rw [split?_append_of_not_mem h, split?, if_pos rfl, Option.map_some]
  exact congrArg (fun header => some (header, payload)) (List.append_nil header)

/-- The payload without the blanks in it. -/
def compact (payload : String) : List Char :=
  payload.toList.filter fun c => !Blank.isAsciiBlank c

/-- **What is read of the payload of an address** that announces base64. -/
theorem reveal?_append {header payload : String} (hcomma : ',' ∉ header.toList)
    (hbase64 : announcesBase64 header.toList = true) :
    reveal? (header ++ "," ++ payload) = (Base64.decode? (compact payload)).map fun bytes =>
      header ++ "," ++ Utf8.decodeLossy bytes := by
  have hsplit : split? (header ++ "," ++ payload).toList = some (header.toList, payload.toList) := by
    have htext : (header ++ "," ++ payload).toList = header.toList ++ ',' :: payload.toList := by
      simp
    rw [htext, split?_append hcomma]
  rw [reveal?, hsplit]
  dsimp only
  rw [if_pos hbase64, String.ofList_toList]
  rfl

/-- **What stands before a payload** stays when the payload is read. -/
theorem isPrefix_reveal? {cs : List Char} (hcomma : ',' ∉ cs) {value text : String}
    (hcs : cs <+: value.toList) (h : reveal? value = some text) : cs <+: text.toList := by
  obtain ⟨rest, hrest⟩ := hcs
  rw [reveal?, ← hrest, split?_append_of_not_mem hcomma] at h
  cases hsplit : split? rest with
  | none =>
    rw [hsplit] at h
    cases h
  | some parts =>
    obtain ⟨header, payload⟩ := parts
    rw [hsplit, Option.map_some] at h
    dsimp only at h
    split at h
    · obtain ⟨bytes, -, rfl⟩ := Option.map_eq_some_iff.1 h
      refine ⟨header ++ ',' :: (Utf8.decodeLossy bytes).toList, ?_⟩
      simp
    · cases h

end DataUrl

end MarkupFilter
