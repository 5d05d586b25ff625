import Mathlib.Data.Bool.AllAny
import ModuleWorkers.Encoding.DataUrl

/-!
# Data in addresses reads back

Bytes that are written in base 64 are read as they were (`Base64.decode?_encode`), and so is a text
(`DataUrl.text?_encode`). No digit means anything in an address, so an address with digits behind
the comma is taken apart into its media type and the digits (`DataUrl.parse?_json`).
-/

namespace ModuleWorkers

namespace Base64

/-! ## Groups of bits -/

/-- The digits of bytes and how much padding is behind them. -/
def sextets : List UInt8 → List Nat × Nat
  | [] => ([], 0)
  | [a] => ([a.toNat / 4, a.toNat % 4 * 16], 2)
  | [a, b] => ([a.toNat / 4, a.toNat % 4 * 16 + b.toNat / 16, b.toNat % 16 * 4], 1)
  | a :: b :: c :: rest =>
    ([a.toNat / 4, a.toNat % 4 * 16 + b.toNat / 16, b.toNat % 16 * 4 + c.toNat / 64,
      c.toNat % 64] ++ (sextets rest).1, (sextets rest).2)

theorem encode_eq (bs : List UInt8) :
    encode bs = (sextets bs).1.map digit ++ List.replicate (sextets bs).2 '=' := by
  fun_induction sextets bs with
  | case1 => rfl
  | case2 a => rfl
  | case3 a b => rfl
  | case4 a b c rest ih =>
    rw [encode, ih]
    rfl

theorem lt_of_mem_sextets {bs : List UInt8} : ∀ n ∈ (sextets bs).1, n < 64 := by
  fun_induction sextets bs with
  | case1 => simp
  | case2 a =>
    have ha := a.toNat_lt
    simp only [List.forall_mem_cons, List.not_mem_nil, false_imp_iff, implies_true, and_true]
    omega
  | case3 a b =>
    have ha := a.toNat_lt
    have hb := b.toNat_lt
    simp only [List.forall_mem_cons, List.not_mem_nil, false_imp_iff, implies_true, and_true]
    omega
  | case4 a b c rest ih =>
    have ha := a.toNat_lt
    have hb := b.toNat_lt
    have hc := c.toNat_lt
    simp only [List.cons_append, List.nil_append, List.forall_mem_cons]
    exact ⟨by omega, by omega, by omega, by omega, ih⟩

theorem padding_le (bs : List UInt8) : (sextets bs).2 ≤ 2 := by
  fun_induction sextets bs with
  | case1 => exact Nat.zero_le _
  | case2 a => exact Nat.le_refl _
  | case3 a b => exact Nat.le_succ _
  | case4 a b c rest ih => exact ih

/-! ## Reading digits -/

/-- A digit is neither blank nor padding. -/
theorem digit_ne {n : Nat} (h : n < 64) :
    ¬ (digit n = ' ' ∨ digit n = '\t' ∨ digit n = '\n' ∨ digit n = '\r' ∨ digit n = '\x0c') ∧
      digit n ≠ '=' := by
  have hall : ∀ k : Fin 64, ¬ (digit k.val = ' ' ∨ digit k.val = '\t' ∨ digit k.val = '\n' ∨
      digit k.val = '\r' ∨ digit k.val = '\x0c') ∧ digit k.val ≠ '=' := by decide
  exact hall ⟨n, h⟩

theorem unpad_digits (read : List Nat) {digits : List Nat} (h : ∀ n ∈ digits, n < 64)
    (cs : List Char) :
    unpad read 0 (digits.map digit ++ cs) = unpad (digits.reverse ++ read) 0 cs := by
  induction digits generalizing read with
  | nil => rfl
  | cons n digits ih =>
    obtain ⟨hn, hdigits⟩ := List.forall_mem_cons.1 h
    obtain ⟨hblank, hpad⟩ := digit_ne hn
    rw [List.map_cons, List.cons_append, unpad, if_neg hblank, if_neg hpad, value?_digit hn]
    change unpad (n :: read) 0 (digits.map digit ++ cs) = _
    rw [ih _ hdigits]
    simp

theorem unpad_padding (read : List Nat) (padding more : Nat) :
    unpad read padding (List.replicate more '=') = some (read.reverse, padding + more) := by
  induction more generalizing padding with
  | zero => rfl
  | succ more ih =>
    rw [List.replicate_succ, unpad, if_neg (by decide), if_pos rfl, ih]
    congr 2
    omega

/-! ## Reading bytes -/

theorem first_byte (a : UInt8) {x : Nat} (hx : x < 16) :
    UInt8.ofNat (a.toNat / 4 * 4 + (a.toNat % 4 * 16 + x) / 16) = a := by
  have h : a.toNat / 4 * 4 + (a.toNat % 4 * 16 + x) / 16 = a.toNat := by omega
  rw [h, UInt8.ofNat_toNat]

theorem second_byte (b : UInt8) (x : Nat) {y : Nat} (hy : y < 4) :
    UInt8.ofNat ((x * 16 + b.toNat / 16) % 16 * 16 + (b.toNat % 16 * 4 + y) / 4) = b := by
  have hb := b.toNat_lt
  have h : (x * 16 + b.toNat / 16) % 16 * 16 + (b.toNat % 16 * 4 + y) / 4 = b.toNat := by omega
  rw [h, UInt8.ofNat_toNat]

theorem third_byte (c : UInt8) (x : Nat) :
    UInt8.ofNat ((x * 4 + c.toNat / 64) % 4 * 64 + c.toNat % 64) = c := by
  have hc := c.toNat_lt
  have h : (x * 4 + c.toNat / 64) % 4 * 64 + c.toNat % 64 = c.toNat := by omega
  rw [h, UInt8.ofNat_toNat]

/-- How many digits the last group has, if it is not full. -/
def lastGroup (padding : Nat) : Nat := if padding = 0 then 0 else 4 - padding

theorem bytes_sextets (read bs : List UInt8) :
    bytes read (sextets bs).1 = (read.reverse ++ bs, lastGroup (sextets bs).2) := by
  fun_induction sextets bs generalizing read with
  | case1 => simp [bytes, lastGroup]
  | case2 a =>
    have ha := first_byte a (x := 0) (by decide)
    rw [Nat.add_zero] at ha
    rw [bytes, ha]
    simp [lastGroup]
  | case3 a b =>
    have hb := second_byte b (a.toNat % 4) (y := 0) (by decide)
    rw [Nat.add_zero] at hb
    rw [bytes, first_byte a (by have := b.toNat_lt; omega), hb]
    simp [lastGroup]
  | case4 a b c rest ih =>
    have hb := b.toNat_lt
    have hc := c.toNat_lt
    simp only [List.cons_append, List.nil_append]
    rw [bytes.eq_1, first_byte a (by omega), second_byte b _ (by omega), third_byte, ih]
    simp

/-- Bytes that were written are read as they were. -/
theorem decode?_encode (bs : List UInt8) : decode? (encode bs) = some bs := by
  have hunpad : unpad [] 0 (encode bs) = some ((sextets bs).1, (sextets bs).2) := by
    rw [encode_eq, unpad_digits [] lt_of_mem_sextets, unpad_padding]
    simp
  have hpadding := padding_le bs
  rw [decode?, hunpad]
  simp only [Option.bind_eq_bind, Option.bind_some, bytes_sextets, List.reverse_nil,
    List.nil_append]
  unfold lastGroup
  split
  · simp
  · rw [if_pos (by omega)]

/-- What is written means nothing in an address, and stands for itself as a byte. -/
theorem isPlain_of_mem_encode {bs : List UInt8} {c : Char} (h : c ∈ encode bs) :
    DataUrl.isDropped c = false ∧ DataUrl.isControlOrSpace c = false ∧ c ≠ '#' ∧ c ≠ '%' ∧
      (String.singleton c).toUTF8.toList = [UInt8.ofNat c.toNat] ∧
      Char.ofNat (UInt8.ofNat c.toNat).toNat = c := by
  have hall : ∀ c ∈ '=' :: (List.range 64).map digit, DataUrl.isDropped c = false ∧
      DataUrl.isControlOrSpace c = false ∧ c ≠ '#' ∧ c ≠ '%' ∧
      (String.singleton c).toUTF8.toList = [UInt8.ofNat c.toNat] ∧
      Char.ofNat (UInt8.ofNat c.toNat).toNat = c := List.all_iff_forall_prop.1 (by decide +kernel)
  refine hall c ?_
  rw [encode_eq, List.mem_append] at h
  rcases h with h | h
  · obtain ⟨n, hn, rfl⟩ := List.mem_map.1 h
    exact List.mem_cons_of_mem _ (List.mem_map.2 ⟨n, List.mem_range.2 (lt_of_mem_sextets n hn), rfl⟩)
  · exact List.mem_cons.2 (.inl (List.eq_of_mem_replicate h))

end Base64

/-! ## Bytes of a text -/

theorem toList_byteArray (bs : ByteArray) : bs.toList = bs.data.toList := by
  have hloop : ∀ i read, ByteArray.toList.loop bs i read = read.reverse ++ bs.data.toList.drop i := by
    intro i read
    fun_induction ByteArray.toList.loop bs i read with
    | case1 i read hi ih =>
      have hsize : i < bs.data.toList.length := hi
      rw [ih, List.drop_eq_getElem_cons hsize]
      simp [ByteArray.get!, getElem!_pos, hi]
    | case2 i read hi =>
      have hsize : bs.data.toList.length ≤ i := Nat.le_of_not_lt hi
      rw [List.drop_eq_nil_of_le hsize, List.append_nil]
  exact hloop 0 []

/-- The bytes of a text are read as the text. -/
theorem fromUTF8?_toUTF8 (text : String) :
    String.fromUTF8? ⟨text.toUTF8.toList.toArray⟩ = some text := by
  have hbytes : (⟨text.toUTF8.toList.toArray⟩ : ByteArray) = text.toUTF8 := by
    rw [toList_byteArray, Array.toArray_toList]
  rw [hbytes]
  exact dif_pos text.isValidUTF8

namespace DataUrl

/-- A body of plain characters stands for them. -/
theorem percentDecode_encode (read bs : List UInt8) :
    percentDecode read (Base64.encode bs) =
      read.reverse ++ (Base64.encode bs).map fun c => UInt8.ofNat c.toNat := by
  have hplain : ∀ cs : List Char, (∀ c ∈ cs, c ∈ Base64.encode bs) → ∀ read,
      percentDecode read cs = read.reverse ++ cs.map fun c => UInt8.ofNat c.toNat := by
    intro cs hcs
    induction cs with
    | nil => intro read; rw [percentDecode]; simp
    | cons c cs ih =>
      intro read
      obtain ⟨hc, hcs⟩ := List.forall_mem_cons.1 hcs
      obtain ⟨hdropped, -, hhash, hpercent, hbytes, -⟩ := Base64.isPlain_of_mem_encode hc
      rw [percentDecode, if_neg (by simp [hdropped]), hbytes, ih hcs]
      · simp
      · exact hhash
      · simp [hpercent]
  exact hplain _ (fun _ h => h) read

theorem bytes?_encode (mediaType : String) (bs : List UInt8) :
    bytes? ⟨mediaType, true, Base64.encode bs⟩ = some bs := by
  have hchars : ((Base64.encode bs).map fun c => UInt8.ofNat c.toNat).map
      (fun b => Char.ofNat b.toNat) = Base64.encode bs := by
    rw [List.map_map]
    exact (List.map_congr_left fun c hc => (Base64.isPlain_of_mem_encode hc).2.2.2.2.2).trans
      (List.map_id _)
  rw [bytes?, percentDecode_encode, List.reverse_nil, List.nil_append, hchars]
  exact Base64.decode?_encode bs

/-- A text that was written in base 64 is read as it was. -/
theorem text?_encode (mediaType text : String) :
    text? ⟨mediaType, true, Base64.encode text.toUTF8.toList⟩ = some text := by
  rw [text?, bytes?_encode]
  exact fromUTF8?_toUTF8 text

theorem reverse_dropWhile_reverse {p : Char → Bool} {cs : List Char} (h : ∀ c ∈ cs, p c = false) :
    (cs.reverse.dropWhile p).reverse = cs := by
  have hreverse : cs.reverse.dropWhile p = cs.reverse := by
    cases hcs : cs.reverse with
    | nil => rfl
    | cons c back =>
      have hc : c ∈ cs := List.mem_reverse.1 (hcs ▸ List.mem_cons_self)
      rw [List.dropWhile_cons, if_neg (by simp [h c hc])]
  rw [hreverse, List.reverse_reverse]

/-- The address of JSON in base 64 is taken apart into its media type and its body. -/
theorem parse?_json (bs : List UInt8) :
    parse? ("data:application/json;charset=utf-8;base64," ++ .ofList (Base64.encode bs)) =
      some ⟨"application/json", true, Base64.encode bs⟩ := by
  let header := "application/json;charset=utf-8;base64".toList
  have hheader : ∀ c ∈ header, (c ≠ ',' ∧ c ≠ '#') ∧ isControlOrSpace c = false :=
    List.all_iff_forall_prop.1 (by decide +kernel)
  have hrest : ∀ c ∈ header ++ ',' :: Base64.encode bs, isControlOrSpace c = false := by
    intro c hc
    rcases List.mem_append.1 hc with hc | hc
    · exact (hheader c hc).2
    · rcases List.mem_cons.1 hc with rfl | hc
      · rfl
      · exact (Base64.isPlain_of_mem_encode hc).2.1
  have hurl : ("data:application/json;charset=utf-8;base64," ++
      String.ofList (Base64.encode bs)).toList =
        'd' :: 'a' :: 't' :: 'a' :: ':' :: (header ++ ',' :: Base64.encode bs) := by
    have hfront : "data:application/json;charset=utf-8;base64,".toList =
        'd' :: 'a' :: 't' :: 'a' :: ':' :: (header ++ [',']) := by
      decide
    have happend : ∀ a b : String, (a ++ b).toList = a.toList ++ b.toList :=
      fun _ _ => String.toList_append
    refine (happend _ _).trans ?_
    rw [String.toList_ofList]
    exact (congrArg (· ++ _) hfront).trans (by simp)
  have hscheme : afterScheme? ('d' :: 'a' :: 't' :: 'a' :: ':' ::
      (header ++ ',' :: Base64.encode bs)) = some (header ++ ',' :: Base64.encode bs) :=
    congrArg some (reverse_dropWhile_reverse hrest)
  have hstop : ∀ c ∈ header, (c != ',' && c != '#') = true := by
    intro c hc
    simp [(hheader c hc).1]
  rw [parse?, hurl, hscheme]
  simp only [Option.bind_eq_bind, Option.bind_some]
  have htrim : trim (fun c => c == ' ' || isDropped c) header = header := by decide +kernel
  have hmark : withoutMark? header.reverse =
      some "application/json;charset=utf-8".toList.reverse := by
    decide +kernel
  have hfilter : "application/json;charset=utf-8".toList.filter (!isDropped ·) =
      "application/json;charset=utf-8".toList := by
    decide +kernel
  have hhead : ("application/json;charset=utf-8".toList.head? == some ';') = false := by
    decide +kernel
  have htype : mediaType? "application/json;charset=utf-8".toList = some "application/json" := by
    decide +kernel
  have hcomma : ((',' != ',') && (',' != '#')) = false := rfl
  rw [List.takeWhile_append_of_pos hstop, List.dropWhile_append_of_pos hstop, List.takeWhile_cons,
    List.dropWhile_cons, hcomma, if_neg Bool.false_ne_true, if_neg Bool.false_ne_true,
    List.append_nil, htrim, hmark]
  simp only [List.reverse_reverse, hfilter, hhead, if_neg Bool.false_ne_true, htype,
    Option.getD_some, Option.isSome_some, Option.pure_def]

end DataUrl

end ModuleWorkers
