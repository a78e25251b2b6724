import StackScript.Proofs.Image.RoundTrip

/-!
# Writing again what was read

A number is written in the fewest groups that it needs and everything else has one length, so what
was read is written in no more bytes than it was read from. The time of writing survives as well,
because a file keeps it in ticks.
-/

namespace StackScript

variable {s : Bytes} {image : Image}

/-! ## Shortest forms -/

/-- A number is written in the fewest groups. -/
theorem Varint.Closed.length_encodeNat_le (h : Varint.Closed s) :
    (Varint.encodeNat (Varint.value s)).length ≤ s.length := by
  induction s with
  | nil => exact h.elim
  | cons b bs ih =>
    unfold Varint.encodeNat
    split
    · exact Nat.le_add_left 1 _
    · rename_i hmore
      have hvalue : Varint.value (b :: bs) = b.toNat % 128 + 128 * Varint.value bs := rfl
      have hrest : Varint.value (b :: bs) / 128 = Varint.value bs := by omega
      rcases Varint.closed_cons h with ⟨rfl, -⟩ | ⟨-, hclosed⟩
      · -- A single group is less than 128.
        simp only [Varint.value] at hmore
        omega
      · rw [List.length_cons, List.length_cons, hrest]
        exact Nat.succ_le_succ (ih hclosed)

/-- The encoding of a number is its shortest form. -/
theorem Varint.Form.length_encode_le {v : UInt64} (h : Varint.Form v s) :
    (Varint.encode v).length ≤ s.length := by
  have hle := h.closed.length_encodeNat_le
  rwa [h.value] at hle

/-- The encoding of a count is its shortest form. -/
theorem Varint.CountForm.length_encodeNat_le {n : Nat} (h : Varint.CountForm n s) :
    (Varint.encodeNat n).length ≤ s.length := by
  have hlt : n < UInt64.size := Nat.lt_of_le_of_lt h.le (by decide)
  have hle := h.form.length_encode_le
  rwa [Varint.encode, UInt64.toNat_ofNat_of_lt' hlt] at hle

mutual

/-- A datum is written in no more bytes than any of its forms has. -/
theorem Datum.Contents.length_encode_le {d : Datum} {s : Bytes} (h : d.Contents s) :
    d.encode.length ≤ s.length + 2 := by
  match d with
  | .integer n =>
    have hle := Varint.Form.length_encode_le h
    simp only [Datum.encode, List.length_cons]
    omega
  | .real x =>
    have hlength := Word.length h
    simp only [Datum.encode, List.length_cons, length_littleEndian]
    omega
  | .string t =>
    obtain ⟨n, size, rfl, hform, hlength⟩ := h
    have hle := hform.length_encode_le
    rw [Varint.encode, hlength] at hle
    simp only [Datum.encode, List.length_cons, List.length_append]
    omega
  | .boolean b =>
    obtain ⟨hlength, -⟩ := h
    have hword : (truthBytes b).length = 2 := by cases b <;> rfl
    simp only [Datum.encode, List.length_cons]
    omega
  | .array rows cols cells =>
    obtain ⟨r, c, body, rfl, hrows, hcols, -, -, hall⟩ := h
    have hr := hrows.length_encodeNat_le
    have hc := hcols.length_encodeNat_le
    have hcells := hall.length_encodeAll_le
    simp only [Datum.encode, List.length_cons, List.length_append]
    omega

/-- The encoding of values is their shortest form. -/
theorem Datum.AllForm.length_encodeAll_le {ds : List Datum} {s : Bytes} (h : Datum.AllForm ds s) :
    (Datum.encodeAll ds).length ≤ s.length := by
  match ds with
  | [] => exact Nat.zero_le _
  | d :: ds =>
    obtain ⟨contents, rest, rfl, hd, hds⟩ := h
    have hfirst := hd.length_encode_le
    have hrest := hds.length_encodeAll_le
    simp only [Datum.encodeAll, List.length_append, List.length_cons]
    omega

end

mutual

/-- A datum in the format has arrays as they should be. -/
theorem Datum.Contents.shaped {d : Datum} {s : Bytes} (h : d.Contents s) : d.Shaped := by
  match d with
  | .integer _ => trivial
  | .real _ => trivial
  | .string _ => trivial
  | .boolean _ => trivial
  | .array rows cols cells =>
    obtain ⟨r, c, body, -, hrows, hcols, harea, hcount, hall⟩ := h
    have hallowed : Grid.sizeAllowed rows cols = true := by
      have hr := hrows.le
      have hc := hcols.le
      rw [Grid.sizeAllowed_iff]
      omega
    exact ⟨hallowed, hcount, hall.shaped⟩

/-- Values in the format are shaped. -/
theorem Datum.AllForm.shaped {ds : List Datum} {s : Bytes} (h : Datum.AllForm ds s) :
    Datum.AllShaped ds := by
  match ds with
  | [] => trivial
  | d :: ds =>
    obtain ⟨contents, rest, -, hd, hds⟩ := h
    exact ⟨hd.shaped, hds.shaped⟩

end

/-- The encoding of a value is its shortest form. -/
theorem Datum.Form.length_encode_le {d : Datum} (h : d.Form s) : d.encode.length ≤ s.length := by
  obtain ⟨contents, rfl, hcontents⟩ := h
  exact hcontents.length_encode_le

/-- The encoding of an instruction is its shortest form. -/
theorem Instruction.Form.length_encode_le {i : Instruction} (h : i.Form s) :
    i.encode.length ≤ s.length := by
  obtain ⟨word, operand, rfl, -, -, hword, hoperand, -⟩ := h
  have hlength := hword.length
  rw [Instruction.encode, List.length_append, List.length_append, length_littleEndian, hlength]
  split
  · rename_i hcarries
    rw [if_pos hcarries] at hoperand
    exact Nat.add_le_add_left hoperand.length_encode_le 2
  · exact Nat.add_le_add_left (Nat.zero_le _) 2

/-! ## Items of forms -/

variable {α : Type} {form : α → Bytes → Prop}

/-- What every form of an item has, the items of forms have. -/
theorem Each.forall_of {P : α → Prop} {as : List α} (h : Each form as s)
    (hform : ∀ a s, form a s → P a) : ∀ a ∈ as, P a := by
  induction as generalizing s with
  | nil => exact List.forall_mem_nil _
  | cons a as ih =>
    obtain ⟨front, rest, -, hfront, hrest⟩ := h
    exact List.forall_mem_cons.mpr ⟨hform a front hfront, ih hrest⟩

/-- Items that are each written in no more bytes than their forms have are so together. -/
theorem Each.length_flatten_le {write : α → Bytes} {as : List α} (h : Each form as s)
    (hform : ∀ a s, form a s → (write a).length ≤ s.length) :
    ((as.map write).flatten).length ≤ s.length := by
  induction as generalizing s with
  | nil => exact Nat.zero_le _
  | cons a as ih =>
    obtain ⟨front, rest, rfl, hfront, hrest⟩ := h
    rw [List.map_cons, List.flatten_cons, List.length_append, List.length_append]
    exact Nat.add_le_add (hform a front hfront) (ih hrest)

/-! ## Files -/

namespace Image

/-- What a file holds can be written: its constants are shaped, its operations are defined, its
frames are not too large and its instructions are as files keep them. -/
theorem Form.writable (h : image.Form s) :
    Datum.AllShaped image.constants ∧ (∀ i ∈ image.code, i.op.isValid = true) ∧
      (∀ i ∈ image.code, i.op = .frame → i.operand.toNat ≤ maxCells) ∧
      image.code.map Instruction.bare = image.code := by
  obtain ⟨count, size, length, reserved, time, constants, code, -, -, -, -, -, -, hdata, hcode⟩ := h
  refine ⟨Datum.allShaped_iff.mpr ?_, ?_, ?_, ?_⟩
  · exact hdata.forall_of fun d t ⟨_, _, hcontents⟩ => hcontents.shaped
  · exact hcode.forall_of fun i t ⟨_, _, _, _, hvalid, _⟩ => hvalid
  · exact hcode.forall_of fun i t ⟨_, _, _, _, _, _, _, hframe⟩ => hframe
  · have hbare : ∀ i ∈ image.code, i.bare = i :=
      hcode.forall_of fun i t ⟨_, _, _, hi, _⟩ => hi.symm
    exact (List.map_congr_left hbare).trans (List.map_id _)

/-- The counts of a file fit their fields, and so does its length; its contents are written in no
more bytes than it has behind the header. -/
theorem Form.sizes (h : image.Form s) :
    image.constants.length < 0x100000000 ∧ image.code.length < 0x100000000 ∧
      s.length < 0x10000000000000000 ∧
      headerSize + ((image.constants.map Datum.encode).flatten ++
        (image.code.map Instruction.encode).flatten).length ≤ s.length := by
  obtain ⟨constants, code, _, _, _, _, _, hheader, hdata, hcode⟩ := h.header_form
  have hconstants : ((image.constants.map Datum.encode).flatten).length ≤ constants.length :=
    hdata.length_flatten_le fun _ _ hd => hd.length_encode_le
  have hinstructions : ((image.code.map Instruction.encode).flatten).length ≤ code.length :=
    hcode.length_flatten_le fun _ _ hi => hi.length_encode_le
  refine ⟨hheader.constants.lt, hheader.instructions.lt, hheader.length.lt, ?_⟩
  rw [hheader.length_eq, List.length_append, List.length_append]
  omega

/-- The time of writing of a file is one that a file keeps. -/
theorem Form.created_kept (h : image.Form s) :
    Instant.decode image.created.encode = image.created := by
  obtain ⟨_, _, _, _, _, _, _, hheader, -, -⟩ := h.header_form
  obtain ⟨t, -, hcreated⟩ := hheader.time
  rw [show image.created = _ from hcreated, Instant.decode_encode_decode]

end Image

/-- The reader accepts exactly the format, and it gives what the bytes are a form of; the early
comparison of the counts with the bytes behind the header holds in the format. What was read is
written with its own time in no more bytes than it had, and these are read as the same. -/
theorem decode_accepts_format (s : Bytes) (image : Image) :
    (Image.decode s = .ok image ↔ image.Form s) ∧
      (image.Form s →
        2 * (image.constants.length + image.code.length) ≤ (s.drop headerSize).length ∧
          ∀ st p st', image.program st = (p, st') →
            ∃ file, p.encode st' p.created = .ok file ∧ file.length ≤ s.length ∧
              Image.decode file = .ok image) := by
  refine ⟨Image.decode_iff s image, fun hform => ⟨?_, ?_⟩⟩
  · obtain ⟨constants, code, _, _, _, _, _, hheader, hdata, hcode⟩ := hform.header_form
    rw [hheader.body_eq]
    exact Image.counts_le hdata hcode
  · intro st p st' hp
    obtain ⟨hshaped, hvalid, hframes, hbare⟩ := hform.writable
    obtain ⟨hconstants, hcode, hlength, hsize⟩ := hform.sizes
    unfold Image.program at hp
    cases hp
    have hdata : Datum.DescribesAll (Datum.storeAll #[] st image.constants).2 image.constants
        (Datum.storeAll #[] st image.constants).1.toList :=
      Datum.storeAll_describes image.constants hshaped st (.refl _)
    refine ⟨_, Program.encode_eq_ok image.created hdata hvalid rfl, ?_, ?_⟩
    · rw [List.length_append, Image.length_header]
      exact hsize
    · have hfits := Nat.lt_of_le_of_lt hsize hlength
      refine (Image.decode_append rfl hshaped hvalid hframes hconstants hcode hfits).trans ?_
      rw [hbare, hform.created_kept]

/-- A file with numbers in more groups than they need, a truth value that no writer writes, reserved
bytes that are not zero and a time without its mark. -/
def Image.loose : Bytes :=
  Image.marker ++ littleEndian 4 2 ++ littleEndian 4 2 ++ littleEndian 8 74 ++
    List.replicate 16 0xAB ++ littleEndian 8 638000000000000000 ++
    [Kind.integer.tag, 0, 0x85, 0x80, 0x80, 0x00, Kind.boolean.tag, 0, 0x12, 0x34] ++
    (littleEndian 2 Opcode.constant.code.toNat ++ [0x80, 0x80, 0x80, 0x00] ++
      littleEndian 2 Opcode.ret.code.toNat)

/-- What the file holds. -/
def Image.ofLoose : Image where
  constants := [.integer 5, .boolean false]
  code := [{ op := .constant, operand := 0 }, { op := .ret }]
  created := ⟨1664403200, 0⟩

/-- An image with long numbers is read and written shorter. -/
theorem decode_accepts_format_loose : ∃ file,
    Image.decode Image.loose = .ok Image.ofLoose ∧ Image.ofLoose.Form Image.loose ∧
      (Image.ofLoose.program .empty).1.encode .empty ⟨1664403200, 0⟩ = .ok file ∧
      file.length ≤ Image.loose.length ∧ Image.decode file = .ok Image.ofLoose := by
  have hread : Image.decode Image.loose = .ok Image.ofLoose := rfl
  obtain ⟨haccepts, hagain⟩ := decode_accepts_format Image.loose Image.ofLoose
  have hform : Image.ofLoose.Form Image.loose := haccepts.mp hread
  obtain ⟨file, hfile, hlength, hsame⟩ := (hagain hform).2 .empty _ _ rfl
  exact ⟨file, hread, hform, hfile, hlength, hsame⟩

end StackScript
