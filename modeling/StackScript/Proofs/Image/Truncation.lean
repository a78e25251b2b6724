import StackScript.Proofs.Image.RoundTrip

/-!
# Program files that are cut off

A file that ends too soon is refused because bytes are missing and for no other reason, wherever it
is cut: in a tag, in a number, in a string, in an array at any depth or between two items
(`Image.decode_cutOff`). A reader that is given a beginning of some bytes reads what it would read
off all of them, or it runs out of bytes (`OnPart`), and this is put together as readers are.

How deep data may be nested is derived from the number of bytes, so a reader that is given fewer
bytes may also stop because of the depth. It reports the same fault then, which is why `OnPart`
relates readers of different depths.
-/

namespace StackScript

variable {front missing part s : Bytes}

variable {α β : Type}

/-- Reading failed, and the reason is that bytes are missing. -/
def CutOff (r : Except ImageError α) : Prop :=
  ∃ e what, r = .error e ∧ e.cause = .truncated what

namespace CutOff

/-- A missing byte cuts an item off. -/
theorem item : CutOff (.error (.truncated .item) : Except ImageError α) := ⟨_, _, rfl, rfl⟩

/-- What is cut off stays so. -/
theorem bind {x : Except ImageError α} (h : CutOff x) (f : α → Except ImageError β) :
    CutOff (x >>= f) := by
  obtain ⟨e, what, rfl, hcause⟩ := h
  exact ⟨e, what, rfl, hcause⟩

end CutOff

/-- What `whole` reads off some bytes is read by `item` off a beginning of them, unless that runs
out of bytes. -/
def OnPart (whole item : Bytes → Except ImageError (α × Bytes)) : Prop :=
  ∀ part missing a rest, whole (part ++ missing) = .ok (a, rest) →
    (∃ behind, rest = behind ++ missing ∧ item part = .ok (a, behind)) ∨ CutOff (item part)

namespace OnPart

variable {whole item : Bytes → Except ImageError (α × Bytes)}

/-- A value needs no bytes. -/
theorem done (a : α) : OnPart (fun s => .ok (a, s)) fun s => .ok (a, s) := by
  intro part missing b rest h
  cases h
  exact .inl ⟨part, rfl, rfl⟩

/-- A refusal needs no bytes. -/
theorem refused (e : ImageError) :
    OnPart (fun _ => (.error e : Except ImageError (α × Bytes))) fun _ => .error e := by
  intro part missing b rest h
  cases h

/-- One reader behind another: the cut is in what the first one reads, or the second. -/
theorem bind {next next' : α → Bytes → Except ImageError (β × Bytes)} (h : OnPart whole item)
    (h' : ∀ a, OnPart (next a) (next' a)) :
    OnPart (fun s => whole s >>= fun x => next x.1 x.2) fun s =>
      item s >>= fun x => next' x.1 x.2 := by
  intro part missing b rest hread
  obtain ⟨⟨a, middle⟩, hfirst, hnext⟩ := except_bind_eq_ok hread
  rcases h part missing a middle hfirst with ⟨behind, rfl, hitem⟩ | hitem
  · simp only [hitem]
    exact h' a behind missing b rest hnext
  · exact .inr (hitem.bind _)

/-- A decision between two readers. -/
theorem ite (c : Prop) [Decidable c] {whole' item' : Bytes → Except ImageError (α × Bytes)}
    (h : OnPart whole item) (h' : OnPart whole' item') :
    OnPart (fun s => if c then whole s else whole' s) fun s => if c then item s else item' s := by
  split
  · exact h
  · exact h'

end OnPart

/-! ## Numbers -/

/-- Bytes are read or cut off. -/
theorem takeBytes_onPart (n : Nat) : OnPart (takeBytes n) (takeBytes n) := by
  intro part missing b rest h
  by_cases hshort : part.length < n
  · right
    unfold takeBytes
    rw [if_pos (by rw [List.length_take]; omega)]
    exact .item
  · left
    have hlong : n ≤ part.length := Nat.not_lt.mp hshort
    have hread (s : Bytes) (hs : n ≤ s.length) : takeBytes n s = .ok (s.take n, s.drop n) :=
      if_neg (by rw [List.length_take]; omega)
    rw [hread _ (by rw [List.length_append]; omega)] at h
    cases h
    refine ⟨part.drop n, List.drop_append_of_le_length hlong, ?_⟩
    rw [hread part hlong, List.take_append_of_le_length hlong]

/-- A varint is read from its middle or cut off. -/
theorem Varint.decodeFrom_onPart (i acc : Nat) :
    OnPart (Varint.decodeFrom i acc) (Varint.decodeFrom i acc) := by
  intro part missing v rest h
  induction part generalizing i acc with
  -- The bytes end before the last one of the number, which is the one with a clear top bit.
  | nil => exact .inr .item
  | cons b part ih =>
    rw [List.cons_append] at h
    unfold Varint.decodeFrom at h ⊢
    split
    · rw [if_pos ‹_›] at h
      cases h
    rw [if_neg ‹_›] at h
    split
    · rw [if_pos ‹_›] at h
      split
      · rw [if_pos ‹_›] at h
        cases h
      · rw [if_neg ‹_›] at h
        cases h
        exact .inl ⟨part, rfl, rfl⟩
    · rw [if_neg ‹_›] at h
      exact ih _ _ h

/-- A varint is read or cut off. -/
theorem Varint.decode_onPart : OnPart Varint.decode Varint.decode :=
  Varint.decodeFrom_onPart 0 0

/-- A count is read or cut off. -/
theorem takeCount_onPart (what : Nat → Corruption) : OnPart (takeCount what) (takeCount what) :=
  Varint.decode_onPart.bind fun n =>
    .ite (maxCells < n.toNat) (.refused (.corrupt (what n.toNat))) (.done n.toNat)

/-! ## Items one after the other -/

section Items

variable {whole item : Bytes → Except ImageError (α × Bytes)}

/-- Items are read or cut off if one is. -/
theorem takeItems_onPart (h : OnPart whole item) (place : Nat → ImageError → ImageError)
    (hplace : ∀ i e, (place i e).cause = e.cause) (acc : List α) (i n : Nat) :
    OnPart (takeItems whole place acc i n) (takeItems item place acc i n) := by
  induction n generalizing acc i with
  | zero => exact .done acc.reverse
  | succ n ih =>
    intro part missing as rest hread
    rw [takeItems] at hread
    split at hread
    · cases hread
    rename_i a middle hfirst
    rw [takeItems]
    rcases h part missing a middle hfirst with ⟨behind, rfl, hitem⟩ | ⟨e, what, hitem, hcause⟩
    · rw [hitem]
      exact ih (a :: acc) (i + 1) behind missing as rest hread
    · -- Naming the item at fault does not change the reason.
      rw [hitem]
      exact .inr ⟨_, what, rfl, (hplace i e).trans hcause⟩

/-- Several are read or cut off if one is. -/
theorem takeMany_onPart (h : OnPart whole item) (n : Nat) :
    OnPart (takeMany whole [] n) (takeMany item [] n) := by
  have hitems := takeItems_onPart h (fun _ e => e) (fun _ _ => rfl) [] 0 n
  intro part missing as rest hread
  rw [takeMany_eq _ _ _ 0] at hread ⊢
  exact hitems part missing as rest hread

end Items

/-! ## Data -/

/-- Contents are read or cut off if cells are. -/
theorem Datum.takeContents_onPart {whole cell : Bytes → Except ImageError (Datum × Bytes)}
    (h : OnPart whole cell) (k : Kind) :
    OnPart (Datum.takeContents whole k) (Datum.takeContents cell k) := by
  cases k with
  | integer => exact Varint.decode_onPart.bind fun v => .done (Datum.integer v.toInt64)
  | real => exact (takeBytes_onPart 8).bind fun b => .done (Datum.real ⟨.ofNat (ofLittleEndian b)⟩)
  | string =>
    exact Varint.decode_onPart.bind fun v => (takeBytes_onPart v.toNat).bind fun b =>
      .done (Datum.string b)
  | boolean =>
    exact (takeBytes_onPart 2).bind fun b => .done (Datum.boolean (b == truthBytes true))
  | array =>
    exact (takeCount_onPart .rows).bind fun rows => (takeCount_onPart .columns).bind fun cols =>
      .ite (maxCells < rows * cols) (.refused (.corrupt (.size ⟨rows, cols⟩)))
        ((takeMany_onPart h (rows * cols)).bind fun cells => .done (Datum.array rows cols cells))

/-- A datum that is cut off, however deep its arrays are nested and may be. -/
theorem Datum.takeWithin_onPart (m n : Nat) : OnPart (Datum.takeWithin m) (Datum.takeWithin n) := by
  induction n generalizing m with
  | zero => exact fun _ _ _ _ _ => .inr .item
  | succ n ih =>
    -- The part is shorter, so its reader may go less deep than the one of the whole.
    cases m with
    | zero =>
      intro part missing d rest h
      cases h
    | succ m =>
      intro part missing d rest h
      rw [Datum.takeWithin] at h ⊢
      obtain ⟨⟨head, middle⟩, hhead, hread⟩ := except_bind_eq_ok h
      rcases takeBytes_onPart 2 part missing head middle hhead with ⟨behind, rfl, hitem⟩ | hitem
      · rw [hitem]
        simp only [bind, Except.bind] at hread ⊢
        by_cases hreserved : head.getD 1 0 ≠ 0
        · rw [if_pos hreserved] at hread
          cases hread
        rw [if_neg hreserved] at hread ⊢
        cases hkind : Kind.ofTag? (head.getD 0 0) with
        | none =>
          rw [hkind] at hread
          cases hread
        | some k =>
          rw [hkind] at hread
          exact Datum.takeContents_onPart (ih m) k behind missing d rest hread
      · exact .inr (hitem.bind _)

/-- A value is read or cut off. -/
theorem Datum.take_onPart : OnPart Datum.take Datum.take :=
  fun part missing => Datum.takeWithin_onPart _ _ part missing

/-! ## Instructions -/

/-- An instruction is read or cut off. -/
theorem Instruction.take_onPart : OnPart Instruction.take Instruction.take := by
  have hchecked (op : Opcode) := OnPart.ite ((!op.isValid) = true)
    (.refused (.unknownOpcode op.code))
    (.ite ((!op.hasOperand) = true) (.done ({ op } : Instruction))
      (Varint.decode_onPart.bind fun n =>
        .ite ((decide (op = .frame) && decide (maxCells < n.toNat)) = true)
          (.refused (.corrupt (.frame n.toNat))) (.done ({ op, operand := n } : Instruction))))
  exact (takeBytes_onPart 2).bind fun b =>
    hchecked (Opcode.ofCode (UInt16.ofNat (ofLittleEndian b)))

/-! ## Files -/

namespace Image

/-- A file with its own length in the header. -/
def relength (s : Bytes) : Bytes := s.take 24 ++ littleEndian 8 s.length ++ s.drop 32

/-- The header of a file that was cut off behind it and given its new length. -/
theorem relength_form {h : Header} {count size length reserved time : Bytes}
    (hform : h.Form s (part ++ missing) count size length reserved time) {cut : Bytes}
    (hcut : cut = marker ++ count ++ size ++ length ++ reserved ++ time ++ part) :
    Header.Form { h with length := cut.length } (relength cut) part count size
      (littleEndian 8 cut.length) reserved time := by
  obtain ⟨hparts, hcount, hsize, hlength, -, hreserved, htime⟩ := hform
  -- Only the length in the header is replaced; the counts still promise what was cut off.
  have hfront : cut.take 24 = marker ++ count ++ size := by
    have hcut' : cut = marker ++ count ++ size ++ (length ++ reserved ++ time ++ part) := by
      rw [hcut]
      simp only [List.append_assoc]
    rw [hcut']
    exact List.take_left' (by simp only [List.length_append, hcount.length, hsize.length]; rfl)
  have hbehind : cut.drop 32 = reserved ++ time ++ part := by
    have hcut' : cut = marker ++ count ++ size ++ length ++ (reserved ++ time ++ part) := by
      rw [hcut]
      simp only [List.append_assoc]
    rw [hcut']
    exact List.drop_left'
      (by simp only [List.length_append, hcount.length, hsize.length, hlength.length]; rfl)
  have hnew : relength cut = marker ++ count ++ size ++ littleEndian 8 cut.length ++ reserved ++
      time ++ part := by
    unfold relength
    rw [hfront, hbehind]
    simp only [List.append_assoc]
  have hsame : (relength cut).length = cut.length := by
    rw [hnew, hcut]
    simp only [List.length_append, length_littleEndian, hlength.length]
  have hfits : cut.length < Nat.pow 256 8 := by
    have hlt := hlength.lt
    rw [hparts] at hlt
    rw [hcut]
    simp only [List.length_append] at hlt ⊢
    omega
  have hword : Word 8 (relength cut).length (littleEndian 8 cut.length) := by
    rw [hsame]
    exact word_littleEndian 8 hfits
  exact ⟨hnew, hcount, hsize, hword, hsame.symm, hreserved, htime⟩

/-- What stands behind a header, cut off: bytes are missing for a constant, or all of them are there
and bytes are missing for an instruction. -/
theorem items_cutOff {image : Image} {constants code : Bytes}
    (hdata : Each Datum.Form image.constants constants)
    (hcode : Each Instruction.Form image.code code) (hs : constants ++ code = part ++ missing)
    (hmissing : missing ≠ []) :
    CutOff (takeItems Datum.take .constant [] 0 image.constants.length part) ∨
      ∃ behind, takeItems Datum.take .constant [] 0 image.constants.length part =
          .ok (image.constants, behind) ∧
        CutOff (takeItems Instruction.take .instruction [] 0 image.code.length behind) := by
  have hconstants := (takeItems_takes Datum.take_takes .constant _ _ image.constants code).mpr
    ⟨constants, rfl, rfl, hdata⟩
  have hinstructions := (takeItems_takes Instruction.take_takes .instruction _ _ image.code []).mpr
    ⟨code, (List.append_nil code).symm, rfl, hcode⟩
  rw [hs] at hconstants
  rcases takeItems_onPart Datum.take_onPart .constant (fun _ _ => rfl) _ _ _ _ _ _ _
    hconstants with ⟨behind, rfl, hfirst⟩ | hfirst
  · refine .inr ⟨behind, hfirst, ?_⟩
    rcases takeItems_onPart Instruction.take_onPart .instruction (fun _ _ => rfl) _ _ _ _ _ _ _
      hinstructions with ⟨rest, hnil, -⟩ | hsecond
    · exact absurd (List.append_eq_nil_iff.mp hnil.symm).2 hmissing
    · exact hsecond
  · exact .inl hfirst

/-- A file that is read is read no more once it is cut off behind its header, wherever that is, and
given its new length. The reason is always that bytes are missing. -/
theorem decode_cutOff {file : Bytes} {image : Image} (hdecode : decode file = .ok image) {n : Nat}
    (hheader : headerSize ≤ n) (hcut : n < file.length) :
    ∃ e what, decode (relength (file.take n)) = .error e ∧ e.cause = .truncated what := by
  obtain ⟨constants, code, count, size, length, reserved, time, hform, hdata, hcode⟩ :=
    ((decode_iff file image).mp hdecode).header_form
  have hbody := (List.take_append_drop (n - headerSize) (constants ++ code)).symm
  have hmissing : (constants ++ code).drop (n - headerSize) ≠ [] := by
    rw [← List.length_pos_iff, List.length_drop]
    have hlength := hform.length_eq
    omega
  have hfront : file.take n = marker ++ count ++ size ++ length ++ reserved ++ time ++
      (constants ++ code).take (n - headerSize) := by
    rw [hform.parts, List.take_append, hform.length_front,
      List.take_of_length_le (by rw [hform.length_front]; exact hheader)]
  generalize (constants ++ code).take (n - headerSize) = part at hbody hfront
  generalize (constants ++ code).drop (n - headerSize) = missing at hbody hmissing
  rw [hbody] at hform
  have hnew := relength_form hform hfront
  have hread := (decodeHeader_iff _ _).mpr ⟨_, _, _, _, _, _, hnew⟩
  unfold decode
  rw [hread]
  change CutOff (if _ then _ else _)
  rw [hnew.body_eq]
  split
  · exact ⟨_, .counts, rfl, rfl⟩
  · rcases items_cutOff hdata hcode hbody hmissing with hfirst | ⟨behind, hfirst, hsecond⟩
    · exact hfirst.bind _
    · rw [hfirst]
      exact hsecond.bind _

/-- A file with nested arrays and a NaN, cut off at any of its bytes. -/
theorem decode_cutOff_nested : ∃ file image,
    Program.nested.encode .nested ⟨1700000000, 0⟩ = .ok file ∧ decode file = .ok image ∧
      headerSize < file.length ∧ ∀ n, headerSize ≤ n → n < file.length →
        ∃ e what, decode (relength (file.take n)) = .error e ∧ e.cause = .truncated what := by
  have hcheck : (Program.nested.encode .nested ⟨1700000000, 0⟩).toOption.any (fun file =>
      (decode file).isOk && decide (headerSize < file.length)) = true := by decide +kernel
  cases hfile : Program.nested.encode .nested ⟨1700000000, 0⟩ with
  | error e =>
    rw [hfile] at hcheck
    cases hcheck
  | ok file =>
    rw [hfile] at hcheck
    obtain ⟨hok, hlength⟩ := Bool.and_eq_true_iff.mp hcheck
    cases hdecode : decode file with
    | error e =>
      rw [hdecode] at hok
      cases hok
    | ok image =>
      exact ⟨file, image, rfl, hdecode, of_decide_eq_true hlength,
        fun n hheader hcut => decode_cutOff hdecode hheader hcut⟩

end Image

end StackScript
