import StackScript.Machine.Host
import StackScript.Proofs.Compile.Signatures
import StackScript.Proofs.Generate.Marking
import StackScript.Proofs.Text.Words

/-!
# Import files

What an import file declares depends on the words of its lines only. A line without words, or whose
first word begins with `#`, says nothing. Any other line has to end in a name in brackets and a
number, and a line that does not, or that is too long, makes the whole file an error
(`parse_error_iff`). The file that is written for a table of functions of the host declares them in
the order of the table (`parse_declarations`).
-/

namespace StackScript

variable {s : Bytes} {ls : List Bytes} {ds : List Import} {n : Nat} {b : UInt8}

/-! ## Numbers -/

/-- A decimal digit is read as its value. -/
theorem hexDigit?_digit (h : n < 10) : hexDigit? (digit n) = some n := by
  have hvalue := digit_toNat h
  unfold hexDigit?
  rw [if_pos]
  · rw [hvalue, Nat.add_sub_cancel_left]
  · simp only [Bool.and_eq_true, decide_eq_true_eq, UInt8.le_iff_toNat_le, hvalue]
    exact ⟨Nat.le_add_right 48 n, Nat.add_le_add_left (Nat.le_of_lt_succ h) 48⟩

/-- Reading the digits of a number gives the number. -/
theorem digitsFrom_decimalOnto (rest : Bytes) (h : n < 0x10000000000000000) :
    digitsFrom 10 0 (decimalOnto n rest) = digitsFrom 10 n rest := by
  induction n, rest using decimalOnto.induct with
  | case1 n rest hn =>
    rw [decimalOnto, if_pos hn, digitsFrom, hexDigit?_digit hn]
    simp only
    rw [if_neg (by omega), if_neg (by omega), Nat.zero_mul, Nat.zero_add]
  | case2 n rest hn ih =>
    have hdigit : n % 10 < 10 := Nat.mod_lt n (by decide)
    rw [decimalOnto, if_neg hn, ih (by omega), digitsFrom, hexDigit?_digit hdigit]
    simp only
    rw [if_neg (by omega), Nat.div_add_mod' n 10, if_neg (by omega)]

/-- A number is written in digits. -/
theorem mem_decimalOnto {rest : Bytes} (h : b ∈ decimalOnto n rest) :
    (48 ≤ b.toNat ∧ b.toNat ≤ 57) ∨ b ∈ rest := by
  induction n, rest using decimalOnto.induct with
  | case1 n rest hn =>
    rw [decimalOnto, if_pos hn, List.mem_cons] at h
    refine h.imp_left ?_
    rintro rfl
    rw [digit_toNat hn]
    omega
  | case2 n rest hn ih =>
    rw [decimalOnto, if_neg hn] at h
    rcases ih h with h | h
    · exact .inl h
    · refine (List.mem_cons.mp h).imp_left ?_
      rintro rfl
      rw [digit_toNat (Nat.mod_lt n (by decide))]
      omega

/-- A number has a digit. -/
theorem decimalOnto_ne_nil (n : Nat) (rest : Bytes) : decimalOnto n rest ≠ [] := by
  induction n, rest using decimalOnto.induct with
  | case1 n rest hn =>
    rw [decimalOnto, if_pos hn]
    exact List.cons_ne_nil _ _
  | case2 n rest hn ih =>
    rw [decimalOnto, if_neg hn]
    exact ih

/-- A text of digits is free of white space. -/
theorem isSolid_of_digits (h : ∀ b ∈ s, 48 ≤ b.toNat ∧ b.toNat ≤ 57) : isSolid s = true := by
  induction s with
  | nil => rfl
  | cons b s ih =>
    obtain ⟨hlo, hhi⟩ := h b (.head _)
    have hlow : b < 0x80 := Nat.lt_of_le_of_lt hhi (by decide)
    have hchar : (Char.ofNat b.toNat).toNat = b.toNat := Piece.val_ofNat (.inl (by omega))
    have hblank : isBlankByte b = false := by
      simp only [isBlankByte, isBlankChar, hchar]
      simp
      omega
    rw [isSolid_cons_low hlow, hblank, ih fun b hb => h b (.tail _ hb)]
    rfl

/-- A digit is no sign. -/
theorem splitSign_of_digit (h : 48 ≤ b.toNat) (bs : Bytes) :
    splitSign (b :: bs) = (false, b :: bs) := by
  unfold splitSign
  split
  · rename_i heq
    cases heq
    exact absurd h (by decide)
  · rename_i heq
    cases heq
    exact absurd h (by decide)
  · rfl

section Minimum

variable {m : Int} (hnonneg : 0 ≤ m) (hfits : m < 0x8000000000000000)
include hnonneg

/-- A number that is not negative is written without a sign. -/
theorem decimalInt_of_nonneg : decimalInt m = decimal m.toNat := by
  unfold decimalInt
  rw [if_neg (by omega)]

/-- It is written in digits. -/
theorem decimalInt_digits : ∀ b ∈ decimalInt m, 48 ≤ b.toNat ∧ b.toNat ≤ 57 := by
  intro b hb
  rw [decimalInt_of_nonneg hnonneg] at hb
  exact (mem_decimalOnto hb).resolve_right (List.not_mem_nil)

/-- It has a digit. -/
theorem decimalInt_ne_nil : decimalInt m ≠ [] := by
  rw [decimalInt_of_nonneg hnonneg]
  exact decimalOnto_ne_nil _ _

include hfits in
/-- A number of arguments is read as it was written. -/
theorem readInt64_decimalInt : ∃ z, readInt64 (decimalInt m) = .ok z ∧ 0 ≤ z ∧ z.toInt = m := by
  have hsign : splitSign (decimalInt m) = (false, decimalInt m) := by
    obtain ⟨b, bs, hs⟩ := List.exists_cons_of_ne_nil (decimalInt_ne_nil hnonneg)
    obtain ⟨hlo, -⟩ := decimalInt_digits hnonneg b (hs ▸ .head _)
    rw [hs, splitSign_of_digit hlo]
  have hdigits : readDigits (decimalInt m) = .ok m.toNat := by
    unfold readDigits
    rw [if_neg (by simpa using decimalInt_ne_nil hnonneg), decimalInt_of_nonneg hnonneg, decimal,
      digitsFrom_decimalOnto [] (by omega), digitsFrom]
  have hvalue : (Int64.ofInt m).toInt = m := Int64.toInt_ofInt_of_le (by omega) (by omega)
  have hint : int64? m = some (Int64.ofInt m) := by rw [int64?, if_pos (by omega)]
  refine ⟨Int64.ofInt m, ?_, ?_, hvalue⟩
  · simp only [readInt64, hsign, hdigits, Bool.false_eq_true, if_false,
      Int.toNat_of_nonneg hnonneg, hint]
  · rw [Int64.le_iff_toInt_le, hvalue, Int64.toInt_zero]
    exact hnonneg

end Minimum

/-! ## Lines -/

namespace Import

/-- Words say nothing: there are none, or the first of them begins with `#`. -/
def IsRemark (ws : List Bytes) : Prop := ∀ w ∈ ws.head?, startsWith "#" w = true

/-- Words declare a function: the last two are its name in brackets and the fewest arguments of a
call. -/
def Declares (ws : List Bytes) (d : Import) : Prop :=
  ∃ front least z, ws = front ++ ["[" ++ d.name ++ "]", least] ∧ d.name ≠ [] ∧
    readInt64 least = .ok z ∧ 0 ≤ z ∧ z.toInt = d.minimum

/-- A line cannot be read: it is too long, or it says something that is no declaration. -/
def Rejected (line : Bytes) : Prop :=
  maxLine ≤ line.length ∨ ¬ IsRemark (words line) ∧ ∀ d, ¬ Declares (words line) d

/-- Lines that can be read have declarations, in the order of the lines. -/
inductive Reads : List Bytes → List Import → Prop
  | nil : Reads [] []
  | remark {line : Bytes} {rest : List Bytes} {ds : List Import} : line.length < maxLine →
      IsRemark (words line) → Reads rest ds → Reads (line :: rest) ds
  | declaration {line : Bytes} {rest : List Bytes} {d : Import} {ds : List Import} :
      line.length < maxLine → ¬ IsRemark (words line) → Declares (words line) d → Reads rest ds →
      Reads (line :: rest) (d :: ds)

/-- A carriage return at the end of a line is white space. -/
theorem words_dropReturn (line : Bytes) : words (dropReturn line) = words line := by
  unfold dropReturn
  split
  · rename_i hlast
    obtain ⟨front, rfl⟩ := List.getLast?_eq_some_iff.mp (beq_iff_eq.mp hlast)
    rw [List.dropLast_concat, words_append_blank front [] (by decide)]
    exact (List.append_nil _).symm
  · rfl

/-- A text begins with `#` if its first word does. -/
theorem startsWith_trim (s : Bytes) :
    startsWith "#" (trim s) = true ↔ ∃ w ∈ (words s).head?, startsWith "#" w = true := by
  have hhead (s : Bytes) : startsWith "#" s = true ↔ s.head? = some 35 := by
    change List.isPrefixOf [35] s = true ↔ _
    cases s with
    | nil => simp
    | cons b s => simp [List.isPrefixOf, @eq_comm _ b]
  simp only [hhead, head?_trim, Option.bind_eq_some_iff, Option.mem_def]

/-- The lines that are skipped are those that say nothing. -/
theorem skipped_iff (s : Bytes) :
    ((trim s).isEmpty || startsWith "#" (trim s)) = true ↔ IsRemark (words s) := by
  rw [Bool.or_eq_true, List.isEmpty_iff, trim_eq_nil_iff, startsWith_trim]
  unfold IsRemark
  cases words s with
  | nil => simp
  | cons w ws => simp

/-- A name in brackets is what is between them. -/
theorem unbracket?_eq_some_iff {word name : Bytes} :
    unbracket? word = some name ↔ word = "[" ++ name ++ "]" ∧ name ≠ [] := by
  have hbracketed (name : Bytes) : ("[" ++ name ++ "]" : Bytes) = 91 :: (name ++ [93]) := rfl
  -- The length is counted in characters. Brackets are characters of one byte, whatever is between
  -- them.
  have hlength (name : Bytes) : textLength (91 :: (name ++ [93])) = textLength name + 2 := by
    unfold textLength
    rw [Piece.read_cons_low (by decide), Piece.read_append_low name (by decide),
      Piece.read_cons_low (by decide)]
    simp
  have hempty (name : Bytes) : textLength name = 0 ↔ name = [] := by
    rw [textLength, List.length_eq_zero_iff, ← Piece.write_eq_nil_iff, Piece.write_read]
  rw [hbracketed]
  unfold unbracket?
  constructor
  · intro h
    split at h
    · rename_i hword
      simp only [Bool.and_eq_true, beq_iff_eq, decide_eq_true_eq] at hword
      obtain ⟨⟨hfirst, hlast⟩, hlong⟩ := hword
      obtain ⟨front, rfl⟩ := List.getLast?_eq_some_iff.mp hlast
      cases front with
      | nil => cases hfirst
      | cons b front =>
        cases hfirst
        obtain rfl : front = name := by simpa using h
        rw [List.cons_append, hlength] at hlong
        refine ⟨rfl, fun hnil => ?_⟩
        rw [(hempty front).mpr hnil] at hlong
        exact absurd hlong (by decide)
    · cases h
  · rintro ⟨rfl, hne⟩
    have hlong : 3 ≤ textLength (91 :: (name ++ [93])) := by
      have := mt (hempty name).mp hne
      rw [hlength]
      omega
    have hlast : (91 :: (name ++ [93])).getLast? = some (93 : UInt8) := by
      rw [← List.cons_append, List.getLast?_concat]
    rw [if_pos (by simp [hlong, hlast])]
    simp

section Line

variable {line : Bytes} (n : Nat)

/-- A remark declares nothing. -/
theorem ofLine_remark (h : IsRemark (words line)) : ofLine n (dropReturn line) = .ok none := by
  rw [← words_dropReturn, ← skipped_iff] at h
  unfold ofLine
  rw [if_pos h]

variable (hspeaks : ¬ IsRemark (words line))
include hspeaks

/-- A declaration is read. -/
theorem ofLine_declares {d : Import} (h : Declares (words line) d) :
    ofLine n (dropReturn line) = .ok (some d) := by
  rw [← words_dropReturn, ← skipped_iff] at hspeaks
  obtain ⟨front, least, z, hwords, hname, hread, hnonneg, hz⟩ := h
  have hbrackets := unbracket?_eq_some_iff.mpr ⟨rfl, hname⟩
  unfold ofLine
  rw [if_neg hspeaks, words_trim, words_dropReturn, hwords, List.reverse_append]
  simp only [List.reverse_cons, List.reverse_nil, List.nil_append, List.cons_append]
  simp only [hbrackets, hread, if_neg (Int64.not_lt.mpr hnonneg), hz]

/-- Other lines are refused. -/
theorem ofLine_error (h : ∀ d, ¬ Declares (words line) d) :
    ∃ e, ofLine n (dropReturn line) = .error e := by
  rw [← words_dropReturn, ← skipped_iff] at hspeaks
  unfold ofLine
  rw [if_neg hspeaks, words_trim, words_dropReturn]
  -- Each test that a line passes is a part of what it is to declare a function.
  split
  · rename_i least word front hwords
    split
    · exact ⟨_, rfl⟩
    · rename_i name hname
      split
      · rename_i z hread
        split
        · exact ⟨_, rfl⟩
        · rename_i hnonneg
          obtain ⟨rfl, hne⟩ := unbracket?_eq_some_iff.mp hname
          refine absurd ⟨front.reverse, least, z, ?_, hne, hread, Int64.not_lt.mp hnonneg, rfl⟩
            (h ⟨name, z.toInt⟩)
          rw [← List.reverse_reverse (words line), hwords]
          simp
      · exact ⟨_, rfl⟩
  · exact ⟨_, rfl⟩

end Line

/-- Lines that are all read are read one after another. -/
theorem ofLines_reads (h : Reads ls ds) (acc : List Import) (n : Nat) :
    ofLines acc n ls = .ok (acc.reverse ++ ds) := by
  induction h generalizing acc n with
  | nil => rw [ofLines, List.append_nil]
  | remark hshort hremark _ ih =>
    rw [ofLines, if_neg (by omega), ofLine_remark n hremark]
    exact ih acc (n + 1)
  | declaration hshort hspeaks hdeclares _ ih =>
    rw [ofLines, if_neg (by omega), ofLine_declares n hspeaks hdeclares]
    simp only
    rw [ih, List.reverse_cons, List.append_assoc]
    rfl

/-- Lines have declarations unless one of them cannot be read. -/
theorem exists_reads (h : ∀ line ∈ ls, ¬ Rejected line) : ∃ ds, Reads ls ds := by
  induction ls with
  | nil => exact ⟨[], .nil⟩
  | cons line rest ih =>
    obtain ⟨ds, hrest⟩ := ih fun line hline => h line (.tail _ hline)
    have hline := h line (.head _)
    simp only [Rejected, not_or, Nat.not_le, not_and, Classical.not_forall, Classical.not_not]
      at hline
    obtain ⟨hshort, hspeaks⟩ := hline
    by_cases hremark : IsRemark (words line)
    · exact ⟨ds, .remark hshort hremark hrest⟩
    · obtain ⟨d, hd⟩ := hspeaks hremark
      exact ⟨d :: ds, .declaration hshort hremark hd hrest⟩

/-- A line that is rejected fails the file. -/
theorem ofLines_error {line : Bytes} (hmem : line ∈ ls) (h : Rejected line) (acc : List Import)
    (n : Nat) : ∃ e, ofLines acc n ls = .error e := by
  induction ls generalizing acc n with
  | nil => cases hmem
  | cons first rest ih =>
    rw [ofLines]
    by_cases hlong : maxLine ≤ first.length
    · rw [if_pos hlong]
      exact ⟨_, rfl⟩
    · rw [if_neg hlong]
      rcases List.mem_cons.mp hmem with rfl | hmem
      · obtain ⟨hspeaks, hnone⟩ := h.resolve_left hlong
        obtain ⟨e, he⟩ := ofLine_error n hspeaks hnone
        exact ⟨e, by rw [he]⟩
      · split
        · exact ⟨_, rfl⟩
        · exact ih hmem ..
        · exact ih hmem ..

/-- A file is read line by line. -/
theorem parse_reads (h : Reads (lines s) ds) : parse s = .ok ds :=
  ofLines_reads h [] 1

/-- A file is an error exactly if one of its lines cannot be read. -/
theorem parse_error_iff (s : Bytes) :
    (∃ e, parse s = .error e) ↔ ∃ line ∈ lines s, Rejected line := by
  constructor
  · rintro ⟨e, he⟩
    by_contra hnone
    obtain ⟨ds, hreads⟩ := exists_reads fun line hline hrejected => hnone ⟨line, hline, hrejected⟩
    rw [parse_reads hreads] at he
    cases he
  · rintro ⟨line, hline, hrejected⟩
    exact ofLines_error hline hrejected [] 1

end Import

/-! ## Files for tables of functions -/

namespace Console

variable {c : Console} {s t : Bytes}

/-- Two texts written one after the other are one text. -/
theorem write_write : (c.write s).write t = c.write (s ++ t) := by
  simp only [write, Console.mk.injEq, true_and, and_true]
  exact Array.ext' (by simp)

/-- Room for two texts is room for the first, and then for the second. -/
theorem hasRoom_append (h : c.hasRoom (s ++ t) = true) :
    c.hasRoom s = true ∧ (c.write s).hasRoom t = true := by
  have hsize : (c.output ++ s).size = c.output.size + s.length := by
    rw [← Array.length_toList, Array.toList_appendList, List.length_append, Array.length_toList]
  revert h
  unfold hasRoom write
  cases c.limit with
  | none => simp
  | some n =>
    simp only [decide_eq_true_eq, hsize, List.length_append]
    omega

end Console

namespace HostFunction

/-- A function of the host fits on a line of an import file: it has a name without white space and a
number of arguments of 64 bits that is not negative, and the line that declares it is not too
long. -/
structure Declarable (f : HostFunction) : Prop where
  named : f.name ≠ []
  solid : isSolid f.name = true
  nonneg : 0 ≤ f.minimum
  fits : f.minimum < 0x8000000000000000
  short : f.declaration.length ≤ Import.maxLine

instance (f : HostFunction) : Decidable f.Declarable :=
  decidable_of_iff (f.name ≠ [] ∧ isSolid f.name = true ∧ 0 ≤ f.minimum ∧
      f.minimum < 0x8000000000000000 ∧ f.declaration.length ≤ Import.maxLine)
    ⟨fun h => ⟨h.1, h.2.1, h.2.2.1, h.2.2.2.1, h.2.2.2.2⟩,
      fun h => ⟨h.named, h.solid, h.nonneg, h.fits, h.short⟩⟩

/-- The declaration of a function of the host. -/
def toImport (f : HostFunction) : Import := ⟨f.name, f.minimum⟩

/-- The line that declares a function of the host, without its end. -/
def line (f : HostFunction) : Bytes :=
  utf8 "host" ++ 32 :: (utf8 "[" ++ f.name ++ utf8 "]" ++ 32 :: decimalInt f.minimum)

/-- A host function is declared on a line. -/
theorem declaration_eq (f : HostFunction) : f.declaration = f.line ++ [10] := by
  have hfront : utf8 "host [" = utf8 "host" ++ 32 :: utf8 "[" := rfl
  have hback : utf8 "] " = utf8 "]" ++ [32] := rfl
  have hend : utf8 "\n" = [10] := rfl
  simp [declaration, line, hfront, hback, hend]

namespace Declarable

variable {f : HostFunction} (h : f.Declarable)
include h

/-- A name in brackets is one word. -/
theorem bracketed_solid : isSolid ("[" ++ f.name ++ "]" : Bytes) = true := by
  change isSolid ((91 :: f.name) ++ 93 :: []) = true
  rw [isSolid_append_low _ (by decide), isSolid_cons_low (by decide), h.solid]
  decide

/-- The words of the line of a function. -/
theorem words_line : words f.line =
    [utf8 "host", utf8 "[" ++ f.name ++ utf8 "]", decimalInt f.minimum] := by
  have hname : ("[" ++ f.name ++ "]" : Bytes) ≠ [] := List.cons_ne_nil _ _
  have hdigits := isSolid_of_digits (decimalInt_digits h.nonneg)
  rw [line, words_append_blank _ _ (by decide), words_append_blank _ _ (by decide),
    words_eq_singleton h.bracketed_solid hname,
    words_eq_singleton hdigits (decimalInt_ne_nil h.nonneg),
    words_eq_singleton (s := "host") (by decide) (by decide)]
  rfl

/-- The line of a function is one line. -/
theorem newline_not_mem : 10 ∉ f.line := by
  have hname := not_mem_of_isSolid h.bracketed_solid (b := 10) (by decide)
  have hdigits := not_mem_of_isSolid (isSolid_of_digits (decimalInt_digits h.nonneg)) (b := 10)
    (by decide)
  intro hmem
  rcases List.mem_append.mp hmem with hmem | hmem
  · exact absurd hmem (by decide)
  · rcases List.mem_append.mp (List.mem_of_ne_of_mem (by decide) hmem) with hmem | hmem
    · exact hname hmem
    · exact hdigits (List.mem_of_ne_of_mem (by decide) hmem)

/-- A declaration is no remark. -/
theorem not_isRemark : ¬ Import.IsRemark (words f.line) := by
  rw [h.words_line]
  intro hremark
  exact absurd (hremark "host" rfl) (by decide)

/-- The line of a function declares it. -/
theorem declares : Import.Declares (words f.line) f.toImport := by
  obtain ⟨z, hread, hnonneg, hz⟩ := readInt64_decimalInt h.nonneg h.fits
  exact ⟨["host"], decimalInt f.minimum, z, h.words_line, h.named, hread, hnonneg, hz⟩

/-- The line of a function is short enough. -/
theorem line_lt : f.line.length < Import.maxLine := by
  have := h.short
  rw [declaration_eq, List.length_append] at this
  exact this

end Declarable

/-- What is written line by line is the file, if the output has room for it. -/
theorem writeDeclarations_eq {table : List HostFunction} {w : World}
    (h : w.console.hasRoom (declarations table) = true) :
    writeDeclarations table w =
      .ok () { w with console := w.console.write (declarations table) } := by
  induction table generalizing w with
  | nil => simp [writeDeclarations, declarations, Console.write, pure, EStateM.pure]
  | cons f table ih =>
    rw [declarations, List.flatMap_cons] at h ⊢
    obtain ⟨hfirst, hrest⟩ := Console.hasRoom_append h
    have hwrite : Host.write f.declaration w =
        .ok () { w with console := w.console.write f.declaration } := if_pos hfirst
    change EStateM.bind (Host.write f.declaration) (fun _ => writeDeclarations table) w = _
    rw [EStateM.bind, hwrite, ← Console.write_write]
    exact ih hrest

variable {table : List HostFunction} (h : ∀ f ∈ table, f.Declarable)
include h

/-- The file for a table has a line for each function. -/
theorem lines_declarations : Import.lines (declarations table) = table.map line := by
  have hsplit : (declarations table).splitOn 10 = table.map line ++ [[]] := by
    induction table with
    | nil => rfl
    | cons f table ih =>
      have hline : ∀ b ∈ f.line, (b == 10) = false := by
        intro b hb
        have := (h f (.head _)).newline_not_mem
        exact beq_false_of_ne fun he => this (he ▸ hb)
      rw [declarations, List.flatMap_cons, declaration_eq, List.append_assoc, List.singleton_append,
        List.splitOn_eq_splitOnP, List.splitOnP_append_cons_of_forall_mem hline 10 rfl,
        ← List.splitOn_eq_splitOnP]
      exact congrArg (f.line :: ·) (ih fun f hf => h f (.tail _ hf))
  simp [Import.lines, hsplit]

/-- The file for a table declares its functions in order. -/
theorem parse_declarations : Import.parse (declarations table) = .ok (table.map toImport) := by
  refine Import.parse_reads ?_
  rw [lines_declarations h]
  induction table with
  | nil => exact .nil
  | cons f table ih =>
    have hf := h f (.head _)
    exact .declaration hf.line_lt hf.not_isRemark hf.declares (ih fun f hf => h f (.tail _ hf))

end HostFunction

end StackScript
