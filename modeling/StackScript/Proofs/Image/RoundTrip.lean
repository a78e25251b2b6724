import StackScript.Proofs.Image.Acceptance
import StackScript.Proofs.Image.Instants

/-!
# Program files give back programs

A program that is written to a file is read from it again: the same constants, the same operations
with their operands, and the time of writing to a tick. What is written is in the format, and what
is in the format is read. Reading is possible whenever the length of the file is a number of 64
bits, which its own header asks for.
-/

namespace StackScript

variable {body : Bytes} {now : Instant} {data : List Datum} {p : Program} {st : Store} {n : Nat}

/-! ## Numbers -/

/-- A number takes as many bytes as it is given. -/
@[simp] theorem length_littleEndian (width n : Nat) : (littleEndian width n).length = width := by
  induction width generalizing n with
  | zero => rfl
  | succ width ih => rw [littleEndian, List.length_cons, ih]

/-- A number that fits its width is the one that its bytes stand for. -/
theorem ofLittleEndian_littleEndian (width : Nat) {n : Nat} (h : n < Nat.pow 256 width) :
    ofLittleEndian (littleEndian width n) = n := by
  induction width generalizing n with
  | zero =>
    have hone : Nat.pow 256 0 = 1 := rfl
    obtain rfl : n = 0 := by omega
    rfl
  | succ width ih =>
    have hpow : Nat.pow 256 (width + 1) = Nat.pow 256 width * 256 := rfl
    have hbyte : (UInt8.ofNat (n % 256)).toNat = n % 256 :=
      UInt8.toNat_ofNat_of_lt' (Nat.mod_lt _ (by decide))
    rw [littleEndian, ofLittleEndian, hbyte, ih (by omega)]
    omega

/-- A number that fits its width is written in it. -/
theorem word_littleEndian (width : Nat) (h : n < Nat.pow 256 width) :
    Word width n (littleEndian width n) :=
  ⟨length_littleEndian .., ofLittleEndian_littleEndian width h⟩

namespace Varint

/-- A number has a group at least. -/
theorem length_encodeNat_pos (n : Nat) : 1 ≤ (encodeNat n).length := by
  unfold encodeNat
  split
  · exact Nat.le_refl 1
  · exact Nat.le_add_left 1 _

/-- As many groups are written as the number needs. -/
theorem length_encodeNat_le_succ_iff (n k : Nat) :
    (encodeNat n).length ≤ k + 1 ↔ n < 2 ^ (7 * (k + 1)) := by
  induction k generalizing n with
  | zero =>
    unfold encodeNat
    split
    case isTrue hlast => simpa using hlast
    case isFalse hmore =>
      have hpos := length_encodeNat_pos (n / 128)
      rw [List.length_cons]
      omega
  | succ k ih =>
    have hpow : 2 ^ (7 * (k + 1 + 1)) = 2 ^ (7 * (k + 1)) * 128 := by
      rw [Nat.mul_succ, Nat.pow_add]
    have hpos : 0 < 2 ^ (7 * (k + 1)) := Nat.two_pow_pos _
    unfold encodeNat
    split
    case isTrue hlast =>
      rw [List.length_singleton, hpow]
      omega
    case isFalse hmore =>
      rw [List.length_cons, Nat.succ_le_succ_iff, ih, hpow, Nat.div_lt_iff_lt_mul (by decide)]

/-- The groups of a number are a form of it: the top bit tells the last one. -/
theorem closed_encodeNat (n : Nat) : Closed (encodeNat n) ∧ value (encodeNat n) = n := by
  induction n using Nat.strongRecOn with
  | ind n ih =>
    unfold encodeNat
    split
    case isTrue hlast =>
      have hbyte : (UInt8.ofNat n).toNat = n :=
        UInt8.toNat_ofNat_of_lt' (Nat.lt_trans hlast (by decide))
      constructor
      · change UInt8.ofNat n < 0x80
        rw [UInt8.lt_iff_toNat_lt, hbyte]
        exact hlast
      · simp only [value, hbyte]
        omega
    case isFalse hmore =>
      obtain ⟨hclosed, hvalue⟩ := ih (n / 128) (by omega)
      have hbyte : (UInt8.ofNat (n % 128 + 128)).toNat = n % 128 + 128 :=
        UInt8.toNat_ofNat_of_lt' (by unfold UInt8.size; omega)
      constructor
      · cases hrest : encodeNat (n / 128) with
        | nil =>
          rw [hrest] at hclosed
          exact hclosed.elim
        | cons b bs =>
          refine ⟨UInt8.le_iff_toNat_le.mpr ?_, hrest ▸ hclosed⟩
          rw [hbyte]
          exact Nat.le_add_left ..
      · rw [value, hbyte, hvalue]
        omega

/-- A number of 64 bits is written in a form of it. -/
theorem form_encode (v : UInt64) : Form v (encode v) := by
  have hlt := v.toNat_lt
  obtain ⟨hclosed, hvalue⟩ := closed_encodeNat v.toNat
  exact ⟨hclosed, (length_encodeNat_le_succ_iff v.toNat 9).mpr (by omega), hvalue⟩

/-- A number below the limit of 64 bits is written in a form of it. -/
theorem form_encodeNat (h : n < UInt64.size) : Form (UInt64.ofNat n) (encodeNat n) := by
  have hform := form_encode (UInt64.ofNat n)
  rwa [encode, UInt64.toNat_ofNat_of_lt' h] at hform

/-- A 64-bit number is read from the front of what follows it. -/
theorem decode_encode (v : UInt64) (rest : Bytes) : decode (encode v ++ rest) = .ok (v, rest) :=
  (decode_takes _ v rest).mpr ⟨encode v, rfl, form_encode v⟩

/-- A number of rows or columns is written in a form of it. -/
theorem countForm_encodeNat (h : n ≤ maxCells) : CountForm n (encodeNat n) :=
  ⟨form_encodeNat (Nat.lt_of_le_of_lt h (by decide)), h⟩

end Varint

/-! ## Data and instructions -/

mutual

/-- A shaped datum is written in a form of it. -/
theorem Datum.form_encode (d : Datum) (hshaped : d.Shaped)
    (hlength : d.encode.length < 0x10000000000000000) : d.Form d.encode := by
  match d with
  | .integer m => exact ⟨_, rfl, Varint.form_encode m.toUInt64⟩
  | .real x => exact ⟨_, rfl, word_littleEndian 8 x.bits.toNat_lt⟩
  | .string s =>
    -- The text is part of the encoding, so its length can be written in front of it.
    have hsize : s.length < UInt64.size := by
      simp only [Datum.encode, List.length_cons, List.length_append] at hlength
      unfold UInt64.size
      omega
    exact ⟨_, rfl, _, _, rfl, Varint.form_encodeNat hsize, UInt64.toNat_ofNat_of_lt' hsize⟩
  | .boolean b => exact ⟨_, rfl, by cases b <;> exact ⟨rfl, rfl⟩⟩
  | .array rows cols cells =>
    obtain ⟨hallowed, hcount, hcells⟩ := hshaped
    obtain ⟨-, -, hrows, hcols, harea⟩ := Grid.sizeAllowed_iff.mp hallowed
    simp only [Datum.encode, List.length_cons, List.length_append] at hlength
    exact ⟨_, rfl, _, _, _, List.append_assoc ..,
      Varint.countForm_encodeNat (by exact_mod_cast hrows),
      Varint.countForm_encodeNat (by exact_mod_cast hcols), by exact_mod_cast harea, hcount,
      Datum.allForm_encodeAll cells hcells (by omega)⟩

/-- Shaped data are written in forms of them. -/
theorem Datum.allForm_encodeAll (ds : List Datum) (hshaped : Datum.AllShaped ds)
    (hlength : (Datum.encodeAll ds).length < 0x10000000000000000) :
    Datum.AllForm ds (Datum.encodeAll ds) := by
  match ds with
  | [] => rfl
  | d :: ds =>
    rw [Datum.encodeAll, List.length_append] at hlength
    obtain ⟨contents, hd, hcontents⟩ := d.form_encode hshaped.1 (by omega)
    exact ⟨contents, Datum.encodeAll ds, by rw [Datum.encodeAll, hd], hcontents,
      Datum.allForm_encodeAll ds hshaped.2 (by omega)⟩

end

/-- An instruction is written in a form of what a file keeps of it. -/
theorem Instruction.form_encode {i : Instruction} (hvalid : i.op.isValid = true)
    (hframe : i.op = .frame → i.operand.toNat ≤ maxCells) : i.bare.Form i.encode := by
  have hword : Word 2 i.op.code.toNat (littleEndian 2 i.op.code.toNat) :=
    word_littleEndian 2 i.op.code.toNat_lt
  refine ⟨_, _, rfl, ?_, hvalid, hword, ?_, fun hop => ?_⟩
  · unfold Instruction.bare
    split <;> simp_all
  · unfold Instruction.bare
    cases hoperand : i.op.hasOperand with
    | true => exact Varint.form_encode i.operand
    | false => rfl
  · have hcarries : i.op.hasOperand = true := by
      change i.op = .frame at hop
      rw [hop]
      rfl
    rw [Instruction.bare, if_pos hcarries]
    exact hframe hop

/-! ## Counted items -/

/-- Items that can be written are written in order. -/
theorem encodeItems_eq_ok {item : α → Except ImageError Bytes} {write : β → Bytes}
    {place : Nat → ImageError → ImageError} {as : List α} {bs : List β}
    (h : List.Forall₂ (fun a b => item a = .ok (write b)) as bs) (i : Nat) :
    encodeItems item place i as = .ok (bs.map write) := by
  induction h generalizing i with
  | nil => rfl
  | cons hfirst _ ih => rw [encodeItems, hfirst, ih (i + 1), List.map_cons]

/-- Items that are each written in a form are so together. -/
theorem Each.of_flatten {form : β → Bytes → Prop} {read : α → β} {write : α → Bytes} {as : List α}
    (h : ∀ a ∈ as, form (read a) (write a)) :
    Each form (as.map read) (as.map write).flatten := by
  induction as with
  | nil => rfl
  | cons a as ih =>
    obtain ⟨hfirst, hrest⟩ := List.forall_mem_cons.mp h
    exact ⟨write a, (as.map write).flatten, rfl, hfirst, ih hrest⟩

/-- A written item is no longer than all of them. -/
theorem length_le_flatten (write : α → Bytes) {as : List α} {a : α} (h : a ∈ as) :
    (write a).length ≤ ((as.map write).flatten).length := by
  induction as with
  | nil => cases h
  | cons b as ih =>
    rw [List.map_cons, List.flatten_cons, List.length_append]
    rcases List.mem_cons.mp h with rfl | h
    · omega
    · have := ih h
      omega

/-! ## The file -/

namespace Image

/-- A header has 56 bytes. -/
theorem length_header (constants instructions size : Nat) (now : Instant) :
    (header constants instructions size now).length = headerSize := by
  simp [header, marker, headerSize]

/-- What is read from a file of data and instructions. -/
theorem decode_append {code : List Instruction}
    (hbody : body = (data.map Datum.encode).flatten ++ (code.map Instruction.encode).flatten)
    (hdata : Datum.AllShaped data) (hvalid : ∀ i ∈ code, i.op.isValid = true)
    (hframes : ∀ i ∈ code, i.op = .frame → i.operand.toNat ≤ maxCells)
    (hconstants : data.length < 0x100000000) (hcode : code.length < 0x100000000)
    (hlength : headerSize + body.length < 0x10000000000000000) :
    decode (header data.length code.length body.length now ++ body) =
      .ok { constants := data, code := code.map Instruction.bare
            created := Instant.decode now.encode } := by
  have hforms : Each Datum.Form (data.map id) (data.map Datum.encode).flatten := by
    refine .of_flatten fun d hd => ?_
    have hle := length_le_flatten Datum.encode hd
    rw [hbody, List.length_append] at hlength
    exact d.form_encode (hdata.of_mem hd) (by omega)
  rw [List.map_id] at hforms
  have hsize : (header data.length code.length body.length now ++ body).length =
      headerSize + body.length := by
    rw [List.length_append, length_header]
  refine (decode_iff _ _).mpr ⟨_, _, _, _, _, _, _, congrArg (_ ++ ·) hbody,
    word_littleEndian 4 hconstants, ?_, ?_, List.length_replicate,
    ⟨_, word_littleEndian 8 now.encode.toNat_lt, by rw [UInt64.ofNat_toNat]⟩, hforms,
    .of_flatten fun i hi => Instruction.form_encode (hvalid i hi) (hframes i hi)⟩
  · rw [List.length_map]
    exact word_littleEndian 4 hcode
  · rw [hsize]
    exact word_littleEndian 8 hlength

end Image

/-- A program whose constants are whole is written to a file of their data and its instructions. -/
theorem Program.encode_eq_ok (now : Instant) (hdata : Datum.DescribesAll st data p.constants.toList)
    (hvalid : ∀ i ∈ p.code.toList, i.op.isValid = true)
    (hbody : body = (data.map Datum.encode).flatten ++
      (p.code.toList.map Instruction.encode).flatten) :
    p.encode st now =
      .ok (Image.header data.length p.code.toList.length body.length now ++ body) := by
  -- Each constant is written as the datum that describes it in the store.
  have hconstants : ∀ {ds : List Datum} {cells : List Cell}, Datum.DescribesAll st ds cells →
      List.Forall₂ (fun c d => Cell.encode st c = .ok (Datum.encode d)) cells ds := by
    intro ds
    induction ds with
    | nil =>
      rintro cells rfl
      exact .nil
    | cons d ds ih =>
      rintro cells ⟨v, rest, rfl, hd, hds⟩
      have hsnapshot : Cell.snapshot st (some v) = .ok d := hd.snapshot
      have hfirst : Cell.encode st (some v) = .ok d.encode := by
        unfold Cell.encode
        rw [hsnapshot]
      exact .cons hfirst (ih hds)
  have hcode : List.Forall₂ (fun i j => Instruction.encodeValid i = .ok (Instruction.encode j))
      p.code.toList p.code.toList := by
    rw [List.forall₂_same]
    intro i hi
    rw [Instruction.encodeValid, if_pos (hvalid i hi)]
  have hlength : data.length = p.constants.size := hdata.length_eq
  unfold Program.encode
  rw [encodeItems_eq_ok (hconstants hdata), encodeItems_eq_ok hcode]
  simp only [bind, Except.bind, pure, Except.pure]
  rw [← hbody, hlength]
  rfl

/-- A program whose constants are described by shaped data is written to a file, from which the data
and the instructions are read. -/
theorem Program.decode_encode (now : Instant)
    (hdata : Datum.DescribesAll st data p.constants.toList) (hshaped : Datum.AllShaped data)
    (hvalid : ∀ i ∈ p.code.toList, i.op.isValid = true)
    (hframes : ∀ i ∈ p.code.toList, i.op = .frame → i.operand.toNat ≤ maxCells)
    (hconstants : p.constants.size < 0x100000000) (hcode : p.code.size < 0x100000000) :
    ∃ file, p.encode st now = .ok file ∧ startsWith Image.marker file = true ∧
      headerSize ≤ file.length ∧ (file.length < 0x10000000000000000 →
        Image.decode file = .ok { constants := data
                                  code := p.code.toList.map Instruction.bare
                                  created := Instant.decode now.encode }) := by
  have hlength : data.length = p.constants.size := hdata.length_eq
  refine ⟨_, Program.encode_eq_ok now hdata hvalid rfl, ?_, ?_, fun hsize => ?_⟩
  · unfold startsWith Image.header
    simp only [List.append_assoc, List.isPrefixOf_iff_prefix]
    exact List.prefix_append _ _
  · rw [List.length_append, Image.length_header]
    exact Nat.le_add_right _ _
  · rw [List.length_append, Image.length_header] at hsize
    exact Image.decode_append rfl hshaped hvalid hframes (by omega)
      (by rwa [Array.length_toList]) hsize

/-- A program file gives back the program. A program whose constants can be written out, whose
operations are defined and whose frames are not too large is written to a file, which is read as a
program with the same constants in order, the same operations with the operands that they carry, and
the time of writing to a tick. -/
theorem decode_program_file {st : Store} {p : Program} {now : Instant}
    (hwhole : ∀ c ∈ p.constants.toList, c.Whole st)
    (hvalid : ∀ i ∈ p.code.toList, i.op.isValid = true)
    (hframes : ∀ i ∈ p.code.toList, i.op = .frame → i.operand.toNat ≤ maxCells)
    (hconstants : p.constants.size < 0x100000000) (hcode : p.code.size < 0x100000000)
    (hnanos : now.nanos < 1000000000) (hlow : 0 ≤ now.ticks)
    (hhigh : now.ticks < 0x4000000000000000) :
    ∃ file, p.encode st now = .ok file ∧ (file.length < 0x10000000000000000 →
      ∃ image, Image.decode file = .ok image ∧ ∀ st₀ q st', image.program st₀ = (q, st') →
        (∃ data, Datum.DescribesAll st data p.constants.toList ∧
          Datum.DescribesAll st' data q.constants.toList) ∧
        q.code = p.code.map Instruction.bare ∧ q.created = now.truncated) := by
  have heach : ∀ c ∈ p.constants.toList,
      ∃ v d, c = some v ∧ Datum.Describes st d v ∧ d.Shaped := by
    intro c hc
    obtain ⟨v, rfl, hv⟩ := hwhole c hc
    obtain ⟨d, hd⟩ := hv.exists_describes
    exact ⟨v, d, rfl, hd⟩
  obtain ⟨data, hdata, hshaped⟩ := Datum.exists_describesAll heach
  obtain ⟨file, hfile, -, -, hread⟩ :=
    Program.decode_encode now hdata hshaped hvalid hframes hconstants hcode
  refine ⟨file, hfile, fun hsize => ⟨_, hread hsize, ?_⟩⟩
  intro st₀ q st' hq
  unfold Image.program at hq
  cases hq
  refine ⟨⟨data, hdata, ?_⟩, ?_, Instant.decode_encode hnanos hlow hhigh⟩
  · exact Datum.storeAll_describes data hshaped st₀ (.refl _)
  · exact List.map_toArray.symm

/-- A store with an array in an array. -/
def Store.nested : Store :=
  ⟨#[⟨1, 2, #[some (.integer (-1)), some (.real ⟨0x7FF8000000000001⟩)], rfl⟩,
    ⟨2, 1, #[some (.array 0), some (.string "é")], rfl⟩]⟩

/-- A program with an array in an array among its constants. -/
def Program.nested : Program where
  constants := #[some (.array 1), some (.boolean true), some (.string [0xFF])]
  code := #[{ op := .frame, operand := 3 }, { op := .constant, operand := 0 },
    { op := .callHost, operand := HostCall.pack 1 0 }, { op := .ret }]

/-- A program with an array in an array is read from its file. -/
theorem decode_program_file_nested : ∃ file image,
    Program.nested.encode .nested ⟨1700000000, 123456789⟩ = .ok file ∧
      Image.decode file = .ok image ∧ ∀ st₀ q st', image.program st₀ = (q, st') →
        (∃ data, Datum.DescribesAll .nested data Program.nested.constants.toList ∧
          Datum.DescribesAll st' data q.constants.toList) ∧
        q.code = Program.nested.code.map Instruction.bare ∧
        q.created = ⟨1700000000, 123456700⟩ := by
  have hinner : (Value.array 0).Whole .nested := by
    refine .array (by decide) (by decide) fun v hv => ?_
    have hcells : v = .integer (-1) ∨ v = .real ⟨0x7FF8000000000001⟩ := by
      simpa [Store.nested, Store.grid] using hv
    rcases hcells with rfl | rfl
    · exact .integer _
    · exact .real _
  have houter : (Value.array 1).Whole .nested := by
    refine .array (by decide) (by decide) fun v hv => ?_
    have hcells : v = .array 0 ∨ v = .string "é" := by simpa [Store.nested, Store.grid] using hv
    rcases hcells with rfl | rfl
    · exact hinner
    · exact .string _
  have hwhole : ∀ c ∈ Program.nested.constants.toList, c.Whole .nested := by
    simp only [Program.nested, List.forall_mem_cons]
    exact ⟨⟨_, rfl, houter⟩, ⟨_, rfl, .boolean true⟩, ⟨_, rfl, .string _⟩, by simp⟩
  obtain ⟨file, hfile, hread⟩ := @decode_program_file .nested .nested ⟨1700000000, 123456789⟩
    hwhole (by decide) (by decide) (by decide) (by decide) (by decide) (by decide) (by decide)
  have hshort : (Program.nested.encode .nested ⟨1700000000, 123456789⟩).toOption.all
      (fun s => decide (s.length < 0x10000000000000000)) = true := by decide +kernel
  rw [hfile] at hshort
  obtain ⟨image, himage, hprogram⟩ := hread (of_decide_eq_true hshort)
  exact ⟨file, image, hfile, himage, hprogram⟩

end StackScript
