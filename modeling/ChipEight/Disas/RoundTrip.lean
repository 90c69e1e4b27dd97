import ChipEight.Asm.Pieces
import ChipEight.Disas.Leaders
import ChipEight.Disas.Lines
import ChipEight.Disas.Writes

/-! The listing assembles to the ROM it was printed from. -/

set_option autoImplicit false

namespace ChipEight.Disas

open Asm (Text Token Mnemonic Reader Reads IsWord Piece normalize readLine lineSize wordBytes
  wordI wordDT wordST wordF wordB wordK wordMemory wordV0)
open Opt (isGraph Printable Neat Body graph_letter graph_printable)

/-! ## Pieces -/

def labelAt (m : Map) (pc : Nat) : Option Token := if m.leader pc then some (labelName pc) else none

def wordPiece (decodeUnreachable : Bool) (rom : List Byte) (m : Map) (pc : Nat) : Piece :=
  ⟨labelAt m pc, (wordLine decodeUnreachable m pc (wordAt rom pc)).tokens, wordBytes (wordAt rom pc)⟩

/-- The line of the last byte of an odd ROM. -/
def byteLine (rom : List Byte) (pc : Nat) : Line := ⟨dotByte, [.byte (byteAt rom pc)], []⟩

def bytePiece (rom : List Byte) (m : Map) (pc : Nat) : Piece :=
  ⟨labelAt m pc, (byteLine rom pc).tokens, [byteAt rom pc]⟩

theorem wordPiece_label (decodeUnreachable : Bool) (rom : List Byte) (m : Map) (pc : Nat) :
    (wordPiece decodeUnreachable rom m pc).label = labelAt m pc := rfl

theorem bytePiece_label (rom : List Byte) (m : Map) (pc : Nat) :
    (bytePiece rom m pc).label = labelAt m pc := rfl

def trailing (rom : List Byte) : List Nat :=
  if rom.length % 2 == 1 then [endOf rom.length - 1] else []

/-- The listing as pieces. -/
def pieces (decodeUnreachable : Bool) (rom : List Byte) : List Piece :=
  let m := finalMap rom
  (wordAddresses rom.length).map (wordPiece decodeUnreachable rom m) ++
    (trailing rom).map (bytePiece rom m)

theorem reads_append {texts texts' : List Text} {lines lines' : List Asm.Line}
    (first : Reads texts lines) (second : Reads texts' lines') :
    Reads (texts ++ texts') (lines ++ lines') := by
  induction first with
  | nil => exact second
  | cons read _ ih => exact .cons read ih

theorem reads_piece {m : Map} {pc : Nat} {l : Line} (made : Made allComments l) (bytes : List Byte) :
    Reads (labelLines m pc ++ [l.text]) (Asm.Piece.line ⟨labelAt m pc, l.tokens, bytes⟩).items := by
  have statement : Reads [l.text] [⟨none, l.tokens⟩] := .cons made.read .nil
  unfold labelLines labelAt
  cases leads : m.leader pc with
  | false => exact statement
  | true =>
    have label : readLine (blockName pc ++ [':']) = .ok ⟨some (labelName pc), []⟩ :=
      Asm.readLine_label (blockName_graphic pc).word
    exact .cons label statement

theorem byteLine_made (rom : List Byte) (pc : Nat) : Made allComments (byteLine rom pc) :=
  made_data (by decide) (known_byte _) (by decide)

theorem listing_eq (decodeUnreachable : Bool) (rom : List Byte) :
    listing decodeUnreachable rom =
      ((wordAddresses rom.length).flatMap fun pc => labelLines (finalMap rom) pc ++
        [(wordLine decodeUnreachable (finalMap rom) pc (wordAt rom pc)).text]) ++
      (trailing rom).flatMap fun pc => labelLines (finalMap rom) pc ++ [(byteLine rom pc).text] := by
  unfold listing trailing
  dsimp only
  split
  · rw [List.flatMap_singleton, List.append_assoc]
    rfl
  · exact (List.append_nil _).symm

theorem reads_listing (decodeUnreachable : Bool) (rom : List Byte) :
    Reads (listing decodeUnreachable rom)
      (Asm.items ((pieces decodeUnreachable rom).map Piece.line)) := by
  have words (pcs : List Nat) : Reads
      (pcs.flatMap fun pc => labelLines (finalMap rom) pc ++
        [(wordLine decodeUnreachable (finalMap rom) pc (wordAt rom pc)).text])
      (Asm.items ((pcs.map (wordPiece decodeUnreachable rom (finalMap rom))).map Piece.line)) := by
    induction pcs with
    | nil => exact .nil
    | cons pc pcs ih => exact reads_append (reads_piece (wordLine_made _ _ _ _) _) ih
  have bytes (pcs : List Nat) : Reads
      (pcs.flatMap fun pc => labelLines (finalMap rom) pc ++ [(byteLine rom pc).text])
      (Asm.items ((pcs.map (bytePiece rom (finalMap rom))).map Piece.line)) := by
    induction pcs with
    | nil => exact .nil
    | cons pc pcs ih => exact reads_append (reads_piece (byteLine_made _ _) _) ih
  unfold pieces Asm.items
  rw [listing_eq, List.map_append, List.flatMap_append]
  exact reads_append (words _) (bytes _)

theorem listing_neat (decodeUnreachable : Bool) (rom : List Byte) :
    ∀ t ∈ listing decodeUnreachable rom, Neat t ∧ t.length ≤ 1023 := by
  have label (pc : Nat) : ∀ t ∈ labelLines (finalMap rom) pc, Neat t ∧ t.length ≤ 1023 := by
    intro t here
    unfold labelLines at here
    split at here
    · have graphic := blockName_graphic pc
      rw [List.mem_singleton.mp here]
      refine ⟨⟨⟨_, [], (List.append_nil _).symm, fun c inside => .inl (graphic.graph c inside),
        .inl rfl⟩, fun c inside => graph_printable (graphic.graph c inside)⟩, ?_⟩
      rw [List.length_append, blockName_length]
      decide
    · cases here
  have line {l : Line} (made : Made allComments l) (pc : Nat) :
      ∀ t ∈ labelLines (finalMap rom) pc ++ [l.text], Neat t ∧ t.length ≤ 1023 := by
    intro t here
    obtain first | second := List.mem_append.mp here
    · exact label pc t first
    · rw [List.mem_singleton.mp second]
      exact ⟨made.neat, made.length⟩
  intro t here
  rw [listing_eq] at here
  obtain words | bytes := List.mem_append.mp here
  · obtain ⟨pc, -, inside⟩ := List.mem_flatMap.mp words
    exact line (wordLine_made _ _ _ _) pc t inside
  · obtain ⟨pc, -, inside⟩ := List.mem_flatMap.mp bytes
    exact line (byteLine_made _ _) pc t inside

/-! ## Bytes -/

theorem wordBytes_wordAt (rom : List Byte) (pc : Nat) :
    wordBytes (wordAt rom pc) = [byteAt rom pc, byteAt rom (pc + 1)] := by
  unfold wordBytes wordAt
  generalize byteAt rom pc = high
  generalize byteAt rom (pc + 1) = low
  have first : (((high.setWidth 16 <<< 8 ||| low.setWidth 16) >>> 8).setWidth 8 : Byte) = high := by
    apply BitVec.eq_of_getLsbD_eq
    intro i small
    interval_cases i <;> simp
  have second : ((high.setWidth 16 <<< 8 ||| low.setWidth 16).setWidth 8 : Byte) = low := by
    apply BitVec.eq_of_getLsbD_eq
    intro i small
    interval_cases i <;> simp
  rw [first, second]

theorem byteAt_offset (rom : List Byte) (i : Nat) :
    byteAt rom (entrypoint.toNat + i) = rom.getD i 0#8 := by
  unfold byteAt
  rw [if_neg (by omega), Nat.add_sub_cancel_left]

theorem pairs_eq {α : Type} (d : α) : ∀ xs : List α,
    ((List.range (xs.length / 2)).flatMap fun i => [xs.getD (2 * i) d, xs.getD (2 * i + 1) d]) ++
      (if xs.length % 2 == 1 then [xs.getD (xs.length - 1) d] else []) = xs
  | [] => by simp
  | [x] => by simp
  | x :: y :: xs => by
    have ih := pairs_eq d xs
    have half : (x :: y :: xs).length / 2 = xs.length / 2 + 1 := by
      rw [List.length_cons, List.length_cons]
      omega
    have parity : (x :: y :: xs).length % 2 = xs.length % 2 := by
      rw [List.length_cons, List.length_cons]
      omega
    rw [half, parity, List.range_succ_eq_map, List.flatMap_cons, List.flatMap_map]
    have tail : (if xs.length % 2 == 1 then [(x :: y :: xs).getD ((x :: y :: xs).length - 1) d]
        else []) = if xs.length % 2 == 1 then [xs.getD (xs.length - 1) d] else [] := by
      split
      · rename_i odd
        have some : xs.length - 1 + 1 = xs.length := by
          have parity := beq_iff_eq.mp odd
          omega
        rw [List.length_cons, List.length_cons, Nat.add_sub_cancel, ← some]
        rfl
      · rfl
    have shift (i : Nat) :
        [(x :: y :: xs).getD (2 * i.succ) d, (x :: y :: xs).getD (2 * i.succ + 1) d] =
          [xs.getD (2 * i) d, xs.getD (2 * i + 1) d] := by
      rw [Nat.mul_succ]
      rfl
    rw [tail]
    simp only [shift]
    exact congrArg (fun rest => x :: y :: rest) ih

theorem pieces_bytes (decodeUnreachable : Bool) (rom : List Byte) :
    (pieces decodeUnreachable rom).flatMap Piece.bytes = rom := by
  have whole := pairs_eq 0#8 rom
  have words : ((wordAddresses rom.length).map
      (wordPiece decodeUnreachable rom (finalMap rom))).flatMap Piece.bytes =
      (List.range (rom.length / 2)).flatMap fun i =>
        [rom.getD (2 * i) 0#8, rom.getD (2 * i + 1) 0#8] := by
    unfold wordAddresses
    rw [List.flatMap_map, List.flatMap_map]
    congr 1
    funext i
    show wordBytes (wordAt rom (entrypoint.toNat + 2 * i)) = _
    rw [wordBytes_wordAt, byteAt_offset, Nat.add_assoc, byteAt_offset]
  have last : ((trailing rom).map (bytePiece rom (finalMap rom))).flatMap Piece.bytes =
      if rom.length % 2 == 1 then [rom.getD (rom.length - 1) 0#8] else [] := by
    unfold trailing
    split
    · rename_i odd
      have some : 1 ≤ rom.length := by
        have parity := beq_iff_eq.mp odd
        omega
      show [byteAt rom (endOf rom.length - 1)] = _
      rw [endOf, Nat.add_sub_assoc some, byteAt_offset]
    · rfl
  unfold pieces
  rw [List.flatMap_append, words, last]
  exact whole

/-! ## The symbol table -/

/-- The addresses of the lines of the listing. -/
def addresses (rom : List Byte) : List Nat := wordAddresses rom.length ++ trailing rom

theorem mem_addresses {rom : List Byte} {a : Nat} :
    a ∈ addresses rom ↔ a % 2 = 0 ∧ entrypoint.toNat ≤ a ∧ a < endOf rom.length := by
  have entry : entrypoint.toNat = 512 := rfl
  have last : a ∈ trailing rom ↔ rom.length % 2 = 1 ∧ a = endOf rom.length - 1 := by
    unfold trailing
    split
    · rename_i odd
      simp only [List.mem_singleton, beq_iff_eq.mp odd, true_and]
    · rename_i even
      simp only [List.not_mem_nil, false_iff, not_and]
      exact fun odd => absurd (beq_iff_eq.mpr odd) even
  unfold addresses wordAddresses
  rw [List.mem_append, last, List.mem_map]
  unfold endOf
  constructor
  · rintro (⟨i, small, rfl⟩ | ⟨odd, rfl⟩)
    · have bound := List.mem_range.mp small
      omega
    · omega
  · rintro ⟨even, above, below⟩
    by_cases whole : a + 1 < entrypoint.toNat + rom.length
    · exact .inl ⟨(a - 512) / 2, List.mem_range.mpr (by omega), by omega⟩
    · exact .inr ⟨by omega, by omega⟩

theorem addresses_nodup (rom : List Byte) : (addresses rom).Nodup := by
  unfold addresses
  refine List.nodup_append.mpr ⟨?_, ?_, ?_⟩
  · unfold wordAddresses
    apply List.Nodup.map _ List.nodup_range
    intro i j same
    have equal : entrypoint.toNat + 2 * i = entrypoint.toNat + 2 * j := same
    omega
  · unfold trailing
    split
    · exact List.nodup_singleton _
    · exact List.nodup_nil
  · intro a word b last same
    obtain ⟨i, small, rfl⟩ := List.mem_map.mp word
    have bound := List.mem_range.mp small
    unfold trailing at last
    split at last
    · have equal := List.mem_singleton.mp last
      unfold endOf at equal
      omega
    · cases last

theorem filterMap_labelAt (m : Map) (pcs : List Nat) :
    pcs.filterMap (labelAt m) = (pcs.filter m.leader).map labelName := by
  induction pcs with
  | nil => rfl
  | cons pc pcs ih =>
    unfold labelAt at ih ⊢
    cases leads : m.leader pc with
    | false =>
      rw [List.filter_cons_of_neg (by rw [leads]; decide), List.filterMap_cons_none (by rw [leads]; rfl),
        ih]
    | true =>
      rw [List.filter_cons_of_pos leads, List.filterMap_cons_some (by rw [leads]; rfl), ih]
      rfl

theorem pieces_labels (decodeUnreachable : Bool) (rom : List Byte) :
    (pieces decodeUnreachable rom).filterMap Piece.label =
      ((addresses rom).filter (finalMap rom).leader).map labelName := by
  unfold pieces addresses
  dsimp only
  generalize finalMap rom = m
  have words : Piece.label ∘ wordPiece decodeUnreachable rom m = labelAt m := rfl
  have bytes : Piece.label ∘ bytePiece rom m = labelAt m := rfl
  rw [List.filterMap_append, List.filterMap_map, List.filterMap_map, words, bytes,
    filterMap_labelAt, filterMap_labelAt, List.filter_append, List.map_append]

theorem labels_nodup {rom : List Byte} (fits : rom.length ≤ 3584) :
    (((addresses rom).filter (finalMap rom).leader).map labelName).Nodup := by
  apply List.Nodup.map_on _ ((addresses_nodup rom).filter _)
  have small : ∀ a ∈ (addresses rom).filter (finalMap rom).leader, a < 4096 := by
    intro a here
    obtain ⟨-, -, below⟩ := mem_addresses.mp (List.mem_filter.mp here).1
    have entry : entrypoint.toNat = 512 := rfl
    unfold endOf at below
    omega
  intro a here b there same
  exact labelName_inj (small a here) (small b there) same

theorem words_length (decodeUnreachable : Bool) (rom : List Byte) (m : Map) (pcs : List Nat) :
    ((pcs.map (wordPiece decodeUnreachable rom m)).flatMap Piece.bytes).length =
      2 * pcs.length := by
  induction pcs with
  | nil => rfl
  | cons pc pcs ih =>
    rw [List.map_cons, List.flatMap_cons, List.length_append, ih, List.length_cons]
    show 2 + 2 * pcs.length = _
    omega

theorem symbol_mem (decodeUnreachable : Bool) {rom : List Byte} {a : Nat} (here : a ∈ addresses rom)
    (leads : (finalMap rom).leader a = true) :
    (⟨labelName a, a⟩ : Asm.Symbol) ∈
      Asm.symbolsFrom entrypoint.toNat (pieces decodeUnreachable rom) := by
  unfold pieces
  dsimp only
  generalize finalMap rom = m at leads
  have label : labelAt m a = some (labelName a) := if_pos leads
  obtain word | last := List.mem_append.mp here
  · obtain ⟨i, small, rfl⟩ := List.mem_map.mp word
    have split : wordAddresses rom.length =
        ((List.range i).map fun k => entrypoint.toNat + 2 * k) ++ (entrypoint.toNat + 2 * i) ::
          ((List.range (rom.length / 2 - i - 1)).map fun k => entrypoint.toNat + 2 * (i + k.succ)) := by
      have bound := List.mem_range.mp small
      have whole : rom.length / 2 = i + (rom.length / 2 - i - 1 + 1) := by omega
      unfold wordAddresses
      conv_lhs => rw [whole]
      rw [List.range_add, List.range_succ_eq_map, List.map_append, List.map_map, List.map_cons,
        List.map_map]
      rfl
    have known : (wordPiece decodeUnreachable rom m (entrypoint.toNat + 2 * i)).label = _ := label
    have found := Asm.symbol_at entrypoint.toNat
      (((List.range i).map fun k => entrypoint.toNat + 2 * k).map (wordPiece decodeUnreachable rom m))
      (((List.range (rom.length / 2 - i - 1)).map fun k => entrypoint.toNat + 2 * (i + k.succ)).map
        (wordPiece decodeUnreachable rom m) ++ (trailing rom).map (bytePiece rom m)) known
    rw [words_length, List.length_map, List.length_range] at found
    rw [split, List.map_append, List.map_cons, List.append_assoc, List.cons_append]
    exact found
  · have known : (bytePiece rom m a).label = _ := label
    unfold trailing at last ⊢
    split at last
    · rename_i odd
      rw [if_pos odd]
      have parity := beq_iff_eq.mp odd
      have found := Asm.symbol_at entrypoint.toNat
        ((wordAddresses rom.length).map (wordPiece decodeUnreachable rom m)) [] known
      rw [words_length, wordAddresses, List.length_map, List.length_range] at found
      have here : entrypoint.toNat + 2 * (rom.length / 2) = a := by
        rw [List.mem_singleton.mp last, endOf]
        omega
      rw [here] at found
      rw [List.mem_singleton.mp last] at found ⊢
      exact found
    · cases last

/-! ## The passes -/

theorem wordLine_yields {read : Reader} (numerals : Numerals read) (decodeUnreachable : Bool)
    {m : Map} (pc : Nat) {op : Word} {z : Nat}
    (known : read (targetOperand m (immediate12 op)).token = .ok z) (small : z ≤ 0xfff) :
    ∃ w, Yields read (wordLine decodeUnreachable m pc op) w ∧ (z = nnnOf op → w = op) := by
  unfold wordLine output
  split
  · exact ⟨op, yields_word numerals op _, fun _ => rfl⟩
  split
  · exact disassemble_yields numerals known small
  · exact disassemble_yields numerals known small

theorem byteLine_size {read : Reader} (numerals : Numerals read) (rom : List Byte) (at' pc : Nat) :
    lineSize read pc (byteLine rom at').tokens = .ok (1, [byteAt rom at']) := by
  have known : read (Operand.byte (byteAt rom at')).token = .ok (byteAt rom at').toNat :=
    numerals (by decide) (by decide) (byteAt rom at').isLt
  have small : ¬ (byteAt rom at').toNat > 0xff := by
    have bound := (byteAt rom at').isLt
    omega
  show (Asm.dataBytes read 0xff .byteRange Asm.byteOf [(Operand.byte (byteAt rom at')).token] >>=
    fun out => _) = _
  simp only [Asm.dataBytes, known, Asm.range, if_neg small, bind, Except.bind]
  show Except.ok (1, [BitVec.ofNat 8 (byteAt rom at').toNat]) = _
  rw [BitVec.ofNat_toNat, BitVec.setWidth_eq]

theorem label_value (table : List Asm.Symbol) (small : ∀ s ∈ table, s.value < memorySize)
    (a : Nat) : ∃ z ≤ 0xfff, Asm.value table false (labelName a) = .ok z := by
  unfold Asm.value
  rw [Asm.strtoul_name (labelName_valid a)]
  dsimp only
  cases found : Asm.lookup table (labelName a) with
  | none => exact ⟨0, Nat.zero_le _, rfl⟩
  | some s =>
    have bound := small s (List.mem_of_find?_eq_some found)
    have size : memorySize = 4096 := rfl
    exact ⟨s.value, by omega, rfl⟩

theorem target_small (table : List Asm.Symbol) (small : ∀ s ∈ table, s.value < memorySize)
    (m : Map) (nnn : Addr) :
    ∃ z ≤ 0xfff, Asm.value table false (targetOperand m nnn).token = .ok z := by
  unfold targetOperand
  split
  · exact label_value table small nnn.toNat
  · have bound := nnn.isLt
    exact ⟨nnn.toNat, by omega, address_known (value_numerals table false) nnn⟩

theorem mem_pieces {decodeUnreachable : Bool} {rom : List Byte} {p : Piece}
    (here : p ∈ pieces decodeUnreachable rom) :
    (∃ pc, p = wordPiece decodeUnreachable rom (finalMap rom) pc) ∨
      ∃ pc, p = bytePiece rom (finalMap rom) pc := by
  obtain word | byte := List.mem_append.mp here
  · obtain ⟨pc, -, rfl⟩ := List.mem_map.mp word
    exact .inl ⟨pc, rfl⟩
  · obtain ⟨pc, -, rfl⟩ := List.mem_map.mp byte
    exact .inr ⟨pc, rfl⟩

theorem pieces_fit (decodeUnreachable : Bool) {rom : List Byte} (fits : rom.length ≤ 3584) :
    Asm.Fits [] entrypoint.toNat (pieces decodeUnreachable rom) := by
  have entry : entrypoint.toNat = 512 := rfl
  constructor
  · intro p here name label
    have named : ∃ pc, labelAt (finalMap rom) pc = some name := by
      obtain ⟨pc, rfl⟩ | ⟨pc, rfl⟩ := mem_pieces here
      · rw [wordPiece_label] at label
        exact ⟨pc, label⟩
      · rw [bytePiece_label] at label
        exact ⟨pc, label⟩
    obtain ⟨pc, label⟩ := named
    unfold labelAt at label
    split at label
    · rw [← Option.some.inj label]
      exact labelName_valid pc
    · cases label
  · rw [pieces_labels]
    exact labels_nodup fits
  · rw [pieces_labels, List.length_map]
    have few := List.length_filter_le (finalMap rom).leader (addresses rom)
    have all : (addresses rom).length ≤ rom.length / 2 + 1 := by
      unfold addresses wordAddresses trailing
      rw [List.length_append, List.length_map, List.length_range]
      split
      · exact Nat.le_refl _
      · exact Nat.le_succ _
    have most : Asm.maxSymbols = 2048 := rfl
    rw [List.length_nil]
    omega
  · rw [pieces_bytes, entry]
    have size : memorySize = 4096 := rfl
    omega
  · intro p here
    obtain ⟨pc, rfl⟩ | ⟨pc, rfl⟩ := mem_pieces here
    · exact List.cons_ne_nil _ _
    · exact List.cons_ne_nil _ _
  · exact List.forall_mem_nil _
  · intro p here pc table small
    have numerals : Numerals (Asm.value table false) := value_numerals table false
    obtain ⟨at', rfl⟩ | ⟨at', rfl⟩ := mem_pieces here
    · obtain ⟨z, bound, known⟩ := target_small table small (finalMap rom)
        (immediate12 (wordAt rom at'))
      obtain ⟨w, yields, -⟩ := wordLine_yields numerals decodeUnreachable at' known bound
      exact ⟨wordBytes w, yields pc⟩
    · exact ⟨_, byteLine_size numerals rom at' pc⟩

theorem target_final (decodeUnreachable : Bool) {rom : List Byte} (fits : rom.length ≤ 3584)
    (some : 0 < rom.length) (nnn : Addr) :
    Asm.value (Asm.symbolsFrom entrypoint.toNat (pieces decodeUnreachable rom)) true
      (targetOperand (finalMap rom) nnn).token = .ok nnn.toNat := by
  have entry : entrypoint.toNat = 512 := rfl
  unfold targetOperand
  split
  · rename_i leads
    obtain ⟨even, above, below⟩ := finalMap_placed rom nnn.toNat leads
    have here : nnn.toNat ∈ addresses rom := by
      refine mem_addresses.mpr ⟨even, above, ?_⟩
      obtain below | first := below
      · exact below
      · unfold endOf
        omega
    have distinct : ((Asm.symbolsFrom entrypoint.toNat (pieces decodeUnreachable rom)).map
        Asm.Symbol.name).Nodup := by
      rw [Asm.symbolsFrom_names, pieces_labels]
      exact labels_nodup fits
    exact Asm.value_label true (labelName_valid nnn.toNat)
      (Asm.lookup_mem distinct (symbol_mem decodeUnreachable here leads))
  · exact address_known (value_numerals _ true) nnn

theorem pieces_written (decodeUnreachable : Bool) {rom : List Byte} (fits : rom.length ≤ 3584) :
    Asm.Written (Asm.symbolsFrom entrypoint.toNat (pieces decodeUnreachable rom))
      (pieces decodeUnreachable rom) := by
  intro p here
  have numerals : Numerals (Asm.value (Asm.symbolsFrom entrypoint.toNat
      (pieces decodeUnreachable rom)) true) := value_numerals _ true
  have some : 0 < rom.length := by
    apply List.length_pos_iff.mpr
    rintro rfl
    cases here
  obtain ⟨at', rfl⟩ | ⟨at', rfl⟩ := mem_pieces here
  · have known := target_final decodeUnreachable fits some (immediate12 (wordAt rom at'))
    have bound := (immediate12 (wordAt rom at')).isLt
    obtain ⟨w, yields, same⟩ := wordLine_yields numerals decodeUnreachable at' known (by omega)
    rw [same rfl] at yields
    exact ⟨(wordLine_made _ _ _ _).noOrg, yields⟩
  · exact ⟨(byteLine_made rom at').noOrg, byteLine_size numerals rom at'⟩

theorem pieces_assemble (decodeUnreachable : Bool) {rom : List Byte} (fits : rom.length ≤ 3584) :
    ∃ layout, Asm.Assembles (Asm.items ((pieces decodeUnreachable rom).map Piece.line)) layout rom := by
  have assembled := Asm.assembles_pieces (pieces_fit decodeUnreachable fits)
    (pieces_written decodeUnreachable fits)
  rw [pieces_bytes] at assembled
  exact ⟨_, assembled⟩

theorem items_items (lines : List Asm.Line) : Asm.items (Asm.items lines) = Asm.items lines := by
  induction lines with
  | nil => rfl
  | cons l lines ih =>
    have once : Asm.items l.items = l.items := by
      obtain ⟨label, statement⟩ := l
      cases label <;> cases statement <;> rfl
    rw [Asm.items_cons, Asm.items, List.flatMap_append, ← Asm.items, ← Asm.items, once, ih]

theorem item_cases {decodeUnreachable : Bool} {rom : List Byte} {item : Asm.Line}
    (here : item ∈ Asm.items ((pieces decodeUnreachable rom).map Piece.line)) :
    (∃ pc, item = ⟨some (labelName pc), []⟩) ∨
      ∃ l, Made allComments l ∧ item = ⟨none, l.tokens⟩ := by
  have split {pc : Nat} {l : Line} (made : Made allComments l) {bytes : List Byte}
      (inside : item ∈ (Asm.Piece.line ⟨labelAt (finalMap rom) pc, l.tokens, bytes⟩).items) :
      (∃ pc, item = ⟨some (labelName pc), []⟩) ∨
        ∃ l, Made allComments l ∧ item = ⟨none, l.tokens⟩ := by
    obtain first | second := List.mem_append.mp inside
    · unfold Piece.line labelAt at first
      cases leads : (finalMap rom).leader pc with
      | false =>
        rw [leads] at first
        cases first
      | true =>
        rw [leads] at first
        exact .inl ⟨pc, List.mem_singleton.mp first⟩
    · exact .inr ⟨l, made, List.mem_singleton.mp second⟩
  obtain ⟨line, within, inside⟩ := List.mem_flatMap.mp here
  obtain ⟨p, there, rfl⟩ := List.mem_map.mp within
  obtain ⟨pc, rfl⟩ | ⟨pc, rfl⟩ := mem_pieces there
  · exact split (wordLine_made _ _ _ _) inside
  · exact split (byteLine_made _ _) inside

theorem listing_same (U : Opt.Unicode) (decodeUnreachable : Bool) (rom : List Byte) :
    Opt.SameReading U (asmOutput decodeUnreachable rom) := by
  have neat := listing_neat decodeUnreachable rom
  refine Opt.sameReading_printed U (reads_listing decodeUnreachable rom)
    (fun t here => (neat t here).1) (fun t here => (neat t here).2) ?_ ?_
  · intro l here
    obtain ⟨pc, rfl⟩ | ⟨l, made, rfl⟩ := item_cases here
    · exact (Option.some_ne_none _).symm
    · exact made.noOrg
  · rw [items_items]
    intro item here
    obtain ⟨pc, rfl⟩ | ⟨l, made, rfl⟩ := item_cases here
    · show ((blockName pc).map Asm.toupper ++ [':']).length ≤ 1023
      rw [List.length_append, List.length_map, blockName_length]
      decide
    · have short := made.statement_length (.inr rfl)
      show (Asm.printStatement l.tokens).length ≤ 1023
      omega

/-- The text printed for a ROM assembles to the ROM, also behind `canonicalize`. -/
theorem round_trip (U : Opt.Unicode) (decodeUnreachable : Bool) {rom : List Byte}
    (fits : rom.length ≤ 3584) :
    Asm.assemble (asmOutput decodeUnreachable rom) = .ok rom ∧
      ∃ statements labels,
        Opt.parseSource U (asmOutput decodeUnreachable rom) = .ok (statements, labels) ∧
        Asm.assemble (Opt.encode (Opt.canonicalize statements)) = .ok rom := by
  have neat := listing_neat decodeUnreachable rom
  have same := listing_same U decodeUnreachable rom
  have ascii : Opt.encode (asmOutput decodeUnreachable rom) = asmOutput decodeUnreachable rom :=
    Opt.encode_printed fun t here => (neat t here).1
  have assembled : Asm.assemble (asmOutput decodeUnreachable rom) = .ok rom := by
    obtain ⟨layout, assembles⟩ := pieces_assemble decodeUnreachable fits
    obtain ⟨lines, reads, items⟩ := Asm.reads_printed
      (fun t here => ⟨(neat t here).1.one, (neat t here).2⟩) (reads_listing decodeUnreachable rom)
    rw [items_items] at items
    exact Asm.assemble_ok.mpr ⟨lines, layout, reads, items ▸ assembles⟩
  obtain ⟨statements, labels, layout, parsed, -, -, parses, clean, assembles⟩ :=
    Opt.parseSource_same U (ascii.symm ▸ assembled) same
  exact ⟨assembled, statements, labels, parsed,
    (Opt.assemble_canonical_iff parses clean same.short).mpr ⟨layout, assembles⟩⟩

/-- A jump over a byte that is left over. -/
def oddRom : List Byte := [0x12, 0x02, 0x60]

theorem round_trip_oddRom :
    Asm.assemble (asmOutput false oddRom) = .ok oddRom ∧
      ∃ statements labels,
        Opt.parseSource Opt.ascii (asmOutput false oddRom) = .ok (statements, labels) ∧
        Asm.assemble (Opt.encode (Opt.canonicalize statements)) = .ok oddRom :=
  round_trip Opt.ascii false (by decide)

end ChipEight.Disas
