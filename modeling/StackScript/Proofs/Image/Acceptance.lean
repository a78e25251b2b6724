import StackScript.Proofs.Image.Format

/-!
# Reading accepts exactly the format

Every reader takes exactly the forms of what it gives, so a file is read if and only if it is in the
format (`Image.decode_iff`), and the check that the counts are not too large for the file refuses
none that is.
-/

namespace StackScript

variable {body count length reserved s size time : Bytes} {h : Header} {acc i n : Nat}

variable {α β : Type}

/-! ## Numbers -/

/-- Bytes stand for a number that fits their count. -/
theorem ofLittleEndian_lt (s : Bytes) : ofLittleEndian s < Nat.pow 256 s.length := by
  induction s with
  | nil => exact Nat.one_pos
  | cons b bs ih =>
    have hb := b.toNat_lt
    have hpow : Nat.pow 256 (bs.length + 1) = Nat.pow 256 bs.length * 256 := rfl
    rw [List.length_cons, hpow, ofLittleEndian]
    omega

/-- A number in a fixed width is below the power of 256. -/
theorem Word.lt {width : Nat} (h : Word width n s) : n < Nat.pow 256 width := by
  have hlt := ofLittleEndian_lt s
  rwa [h.value, h.length] at hlt

/-- The bytes of a fixed width are taken whatever they are. -/
theorem takeBytes_takes (n : Nat) : Takes (takeBytes n) fun a s => a = s ∧ s.length = n := by
  intro s a rest
  constructor
  · intro h
    unfold takeBytes at h
    simp only at h
    split at h
    · cases h
    · rename_i hlength
      rw [List.length_take] at hlength
      cases h
      exact ⟨s.take n, (List.take_append_drop n s).symm, rfl, by rw [List.length_take]; omega⟩
  · rintro ⟨front, rfl, rfl, rfl⟩
    simp [takeBytes]

namespace Varint

/-- The first byte of a number is its last, or others follow. -/
theorem closed_cons {b : UInt8} {bs : Bytes} (h : Closed (b :: bs)) :
    bs = [] ∧ b < 0x80 ∨ 0x80 ≤ b ∧ Closed bs := by
  match bs, h with
  | [], h => exact .inl ⟨rfl, h⟩
  | _ :: _, h => exact .inr h

/-- A group weighs 128 times the one before. -/
theorem weight_succ (i : Nat) : Nat.pow 2 (7 * (i + 1)) = 128 * Nat.pow 2 (7 * i) := by
  change 2 ^ (7 * (i + 1)) = 128 * 2 ^ (7 * i)
  ring

/-- The groups so far and one more are below the weight of the next. -/
theorem group_lt {k : Nat} (hacc : acc < Nat.pow 2 (7 * i)) (hk : k < 128) :
    acc + k * Nat.pow 2 (7 * i) < Nat.pow 2 (7 * (i + 1)) := by
  have hle : k * Nat.pow 2 (7 * i) ≤ 127 * Nat.pow 2 (7 * i) :=
    Nat.mul_le_mul_right _ (Nat.le_of_lt_succ hk)
  rw [weight_succ]
  omega

/-- Behind ten bytes nothing is read. -/
theorem decodeFrom_ten (hi : maxLength ≤ i) (hi' : i ≤ maxLength) (s : Bytes) (r : UInt64 × Bytes) :
    decodeFrom i acc s ≠ .ok r := by
  obtain rfl := Nat.le_antisymm hi' hi
  intro h
  cases s with
  | nil => cases h
  | cons b bs =>
    rw [decodeFrom, if_pos rfl] at h
    cases h

/-- A byte with a clear top bit is the last, and it is read if the number has 64 bits. -/
theorem decodeFrom_last_iff (hi : i < maxLength) (hacc : acc < Nat.pow 2 (7 * i)) {b : UInt8}
    (hlast : b < 0x80) (bs : Bytes) (v : UInt64) (rest : Bytes) :
    decodeFrom i acc (b :: bs) = .ok (v, rest) ↔
      bs = rest ∧ acc + b.toNat * Nat.pow 2 (7 * i) = v.toNat := by
  have hv := v.toNat_lt
  have hsmall : b.toNat < 128 := UInt8.lt_iff_toNat_lt.mp hlast
  have htop : Nat.pow 2 (7 * 9) = 0x8000000000000000 := rfl
  rw [decodeFrom, if_neg (Nat.ne_of_lt hi), if_pos hlast]
  by_cases htenth : i + 1 = maxLength ∧ 1 < b
  · obtain ⟨hnine, hbig⟩ := htenth
    obtain rfl : i = 9 := Nat.succ_injective hnine
    have hone : 1 < b.toNat := UInt8.lt_iff_toNat_lt.mp hbig
    rw [if_pos (by simpa [hnine] using hbig), htop]
    constructor
    · intro h
      cases h
    · rintro ⟨-, hsum⟩
      omega
  · -- Nine groups and one more bit have 64 bits, and so have fewer groups.
    have hfits : acc + b.toNat * Nat.pow 2 (7 * i) < UInt64.size := by
      unfold UInt64.size
      by_cases hnine : i + 1 = maxLength
      · obtain rfl : i = 9 := Nat.succ_injective hnine
        have hone : b.toNat ≤ 1 :=
          UInt8.le_iff_toNat_le.mp (UInt8.not_lt.mp fun hlt => htenth ⟨hnine, hlt⟩)
        rw [htop] at hacc ⊢
        omega
      · have hle : Nat.pow 2 (7 * (i + 1)) ≤ Nat.pow 2 (7 * 9) :=
          Nat.pow_le_pow_right (by decide) (by unfold maxLength at hi hnine; omega)
        have hgroup := group_lt hacc hsmall
        omega
    rw [if_neg (by simpa using htenth), Except.ok.injEq, Prod.mk.injEq, and_comm]
    refine and_congr_right fun _ => ?_
    rw [← UInt64.toNat_inj, UInt64.toNat_ofNat_of_lt' hfits]

/-- What is read behind `i` bytes with the value `acc`: the groups up to the first with a clear top
bit, if there are no more than ten and the number has 64 bits. -/
theorem decodeFrom_iff (hi : i ≤ maxLength) (hacc : acc < Nat.pow 2 (7 * i)) (s : Bytes)
    (v : UInt64) (rest : Bytes) :
    decodeFrom i acc s = .ok (v, rest) ↔ ∃ front, s = front ++ rest ∧ Closed front ∧
      i + front.length ≤ maxLength ∧ acc + value front * Nat.pow 2 (7 * i) = v.toNat := by
  induction s generalizing i acc with
  | nil =>
    constructor
    · intro h
      cases h
    · rintro ⟨front, hs, hclosed, -⟩
      obtain ⟨rfl, -⟩ := List.append_eq_nil_iff.mp hs.symm
      exact hclosed.elim
  | cons b bs ih =>
    by_cases hten : maxLength ≤ i
    · refine ⟨fun h => absurd h (decodeFrom_ten hten hi _ _), ?_⟩
      rintro ⟨front, -, hclosed, hlength, -⟩
      cases front with
      | nil => exact hclosed.elim
      | cons c front =>
        rw [List.length_cons] at hlength
        omega
    have hlt : i < maxLength := Nat.lt_of_not_le hten
    by_cases hlast : b < 0x80
    · have hone : value [b] = b.toNat := by
        have hsmall : b.toNat < 128 := UInt8.lt_iff_toNat_lt.mp hlast
        simp only [value]
        omega
      rw [decodeFrom_last_iff hlt hacc hlast]
      constructor
      · rintro ⟨rfl, hsum⟩
        exact ⟨[b], rfl, hlast, hlt, hone ▸ hsum⟩
      · rintro ⟨front, hs, hclosed, -, hsum⟩
        cases front with
        | nil => exact hclosed.elim
        | cons c front =>
          obtain ⟨rfl, rfl⟩ := List.cons.inj hs
          rcases closed_cons hclosed with ⟨rfl, -⟩ | ⟨hmore, -⟩
          · exact ⟨rfl, hone ▸ hsum⟩
          · exact absurd hlast (UInt8.not_lt.mpr hmore)
    · have hgroup := group_lt hacc (Nat.mod_lt b.toNat (by decide : 128 > 0))
      -- The value of the groups behind is counted from this one on.
      have hsplit : ∀ front, acc + b.toNat % 128 * Nat.pow 2 (7 * i) +
          value front * Nat.pow 2 (7 * (i + 1)) =
            acc + value (b :: front) * Nat.pow 2 (7 * i) := by
        intro front
        rw [weight_succ, value]
        ring
      rw [decodeFrom, if_neg (Nat.ne_of_lt hlt), if_neg hlast, ih hlt hgroup]
      simp only [hsplit]
      constructor
      · rintro ⟨front, rfl, hclosed, hlength, hsum⟩
        refine ⟨b :: front, rfl, ?_, by rw [List.length_cons]; omega, hsum⟩
        cases front with
        | nil => exact hclosed.elim
        | cons c front => exact ⟨UInt8.not_lt.mp hlast, hclosed⟩
      · rintro ⟨front, hs, hclosed, hlength, hsum⟩
        cases front with
        | nil => exact hclosed.elim
        | cons c front =>
          obtain ⟨rfl, rfl⟩ := List.cons.inj hs
          rcases closed_cons hclosed with ⟨-, hless⟩ | ⟨-, hrest⟩
          · exact absurd hless hlast
          · exact ⟨front, rfl, hrest, by rw [List.length_cons] at hlength; omega, hsum⟩

/-- A number of varying length is taken in any of its forms. -/
theorem decode_takes : Takes decode Form := by
  intro s v rest
  have hstart : decodeFrom 0 0 s = .ok (v, rest) ↔ _ :=
    decodeFrom_iff (by decide) (by decide) s v rest
  have hone : ∀ n, 0 + n * Nat.pow 2 (7 * 0) = n := fun n => by
    rw [Nat.zero_add]
    exact Nat.mul_one n
  simp only [hone, Nat.zero_add] at hstart
  rw [decode, hstart]
  constructor
  · rintro ⟨front, hs, hclosed, hlength, hvalue⟩
    exact ⟨front, hs, hclosed, hlength, hvalue⟩
  · rintro ⟨front, hs, hclosed, hlength, hvalue⟩
    exact ⟨front, hs, hclosed, hlength, hvalue⟩

end Varint

/-- A number of rows or columns is taken if it is not too large. -/
theorem takeCount_takes (what : Nat → Corruption) : Takes (takeCount what) Varint.CountForm := by
  have h := Varint.decode_takes.bind fun n => Takes.checked (maxCells < n.toNat)
    (.corrupt (what n.toNat)) fun _ => Takes.done n.toNat
  refine h.congr fun n s => ?_
  constructor
  · rintro ⟨v, front, rest, rfl, hform, hle, rfl, rfl⟩
    rw [List.append_nil]
    exact ⟨by rwa [UInt64.ofNat_toNat], Nat.le_of_not_lt hle⟩
  · rintro ⟨hform, hle⟩
    have hlt : n < UInt64.size := Nat.lt_of_le_of_lt hle (by decide)
    have hn : (UInt64.ofNat n).toNat = n := UInt64.toNat_ofNat_of_lt' hlt
    exact ⟨_, s, [], (List.append_nil s).symm, hform, by rw [hn]; omega, hn.symm, rfl⟩

/-! ## Items one after the other -/

/-- Reading items without naming the one at fault. -/
theorem takeMany_eq (item : Bytes → Except ImageError (α × Bytes)) (acc : List α) (n i : Nat)
    (s : Bytes) : takeMany item acc n s = takeItems item (fun _ e => e) acc i n s := by
  induction n generalizing acc i s with
  | zero => rfl
  | succ n ih =>
    rw [takeMany, takeItems]
    cases item s with
    | error e => rfl
    | ok r => exact ih (r.1 :: acc) (i + 1) r.2

/-- Items are taken behind those already read. -/
theorem takeItems_iff {item : Bytes → Except ImageError (α × Bytes)} {form : α → Bytes → Prop}
    (h : Takes item form) (place : Nat → ImageError → ImageError) (acc : List α) (i n : Nat)
    (s : Bytes) (as : List α) (rest : Bytes) :
    takeItems item place acc i n s = .ok (as, rest) ↔ ∃ more front, as = acc.reverse ++ more ∧
      more.length = n ∧ s = front ++ rest ∧ Each form more front := by
  induction n generalizing acc i s with
  | zero =>
    rw [takeItems, Except.ok.injEq, Prod.mk.injEq]
    constructor
    · rintro ⟨rfl, rfl⟩
      exact ⟨[], [], (List.append_nil _).symm, rfl, rfl, rfl⟩
    · rintro ⟨more, front, rfl, hlength, rfl, heach⟩
      obtain rfl := List.eq_nil_of_length_eq_zero hlength
      obtain rfl : front = [] := heach
      exact ⟨(List.append_nil _).symm, rfl⟩
  | succ n ih =>
    rw [takeItems]
    cases hitem : item s with
    | error e =>
      constructor
      · intro h
        cases h
      · rintro ⟨more, front, -, hlength, rfl, heach⟩
        cases more with
        | nil => cases hlength
        | cons a more =>
          obtain ⟨first, behind, rfl, hform, -⟩ := heach
          have hok := (h _ a (behind ++ rest)).mpr ⟨first, List.append_assoc .., hform⟩
          rw [hitem] at hok
          cases hok
    | ok r =>
      obtain ⟨a, middle⟩ := r
      obtain ⟨first, rfl, hform⟩ := (h s a middle).mp hitem
      simp only [ih]
      constructor
      · rintro ⟨more, front, rfl, rfl, rfl, heach⟩
        refine ⟨a :: more, first ++ front, ?_, rfl, (List.append_assoc ..).symm,
          first, front, rfl, hform, heach⟩
        rw [List.reverse_cons, List.append_assoc]
        rfl
      · rintro ⟨more, front, rfl, hlength, hs, heach⟩
        cases more with
        | nil => cases hlength
        | cons b more =>
          obtain ⟨first', behind, rfl, hform', heach⟩ := heach
          -- The reader gives one item, so the forms begin alike.
          have hok := (h _ b (behind ++ rest)).mpr ⟨first', List.append_assoc .., hform'⟩
          rw [← hs, hitem] at hok
          cases hok
          refine ⟨more, behind, ?_, Nat.succ_injective hlength, rfl, heach⟩
          rw [List.reverse_cons, List.append_assoc]
          rfl

/-- A number of items is taken one after the other. -/
theorem takeItems_takes {item : Bytes → Except ImageError (α × Bytes)} {form : α → Bytes → Prop}
    (h : Takes item form) (place : Nat → ImageError → ImageError) (n : Nat) :
    Takes (takeItems item place [] 0 n) fun as s => as.length = n ∧ Each form as s := by
  intro s as rest
  rw [takeItems_iff h]
  constructor
  · rintro ⟨more, front, rfl, hlength, hs, heach⟩
    exact ⟨front, hs, hlength, heach⟩
  · rintro ⟨front, hs, hlength, heach⟩
    exact ⟨as, front, rfl, hlength, hs, heach⟩

/-! ## Data -/

mutual

/-- How many readers are inside each other when a datum is read. -/
def Datum.levels : Datum → Nat
  | .array _ _ cells => Datum.levelsAll cells + 1
  | _ => 1

/-- How many readers are inside each other when data are read. -/
def Datum.levelsAll : List Datum → Nat
  | [] => 0
  | d :: ds => max d.levels (Datum.levelsAll ds)

end

/-- Data in their forms, one after the other. -/
theorem Datum.each_iff (n : Nat) (ds : List Datum) (s : Bytes) :
    Each (fun d s => d.Form s ∧ d.levels ≤ n) ds s ↔
      Datum.AllForm ds s ∧ Datum.levelsAll ds ≤ n := by
  induction ds generalizing s with
  | nil => simp [Each, Datum.AllForm, Datum.levelsAll]
  | cons d ds ih =>
    simp only [Each, Datum.AllForm, Datum.levelsAll, ih, Nat.max_le]
    constructor
    · rintro ⟨-, rest, rfl, ⟨⟨contents, rfl, hd⟩, hn⟩, hds, hns⟩
      exact ⟨⟨contents, rest, rfl, hd, hds⟩, hn, hns⟩
    · rintro ⟨⟨contents, rest, rfl, hd, hds⟩, hn, hns⟩
      exact ⟨_, rest, rfl, ⟨⟨contents, rfl, hd⟩, hn⟩, hds, hns⟩

/-- The cells of an array are read one after another. -/
theorem Datum.takeMany_takes (hcell : Takes (Datum.takeWithin n) fun d s => d.Form s ∧ d.levels ≤ n)
    (m : Nat) :
    Takes (takeMany (Datum.takeWithin n) [] m) fun ds s =>
      ds.length = m ∧ Datum.AllForm ds s ∧ Datum.levelsAll ds ≤ n := by
  have heq : takeMany (Datum.takeWithin n) [] m =
      takeItems (Datum.takeWithin n) (fun _ e => e) [] 0 m := by
    funext s
    exact takeMany_eq ..
  rw [heq]
  refine (takeItems_takes hcell _ m).congr fun ds s => ?_
  rw [Datum.each_iff]

/-- The contents of a datum are taken, if its cells are. -/
theorem Datum.takeContents_takes
    (hcell : Takes (Datum.takeWithin n) fun d s => d.Form s ∧ d.levels ≤ n) (k : Kind) :
    Takes (Datum.takeContents (Datum.takeWithin n) k) fun d s =>
      d.kind = k ∧ d.Contents s ∧ d.levels ≤ n + 1 := by
  -- Each reader is a chain of readers; what the chain takes is rewritten to what the form says.
  cases k with
  | integer =>
    refine (Varint.decode_takes.bind fun v => .done (Datum.integer v.toInt64)).congr fun d s => ?_
    constructor
    · rintro ⟨v, front, rest, rfl, hform, rfl, rfl⟩
      rw [List.append_nil]
      exact ⟨rfl, hform, Nat.succ_le_succ (Nat.zero_le n)⟩
    · rintro ⟨hkind, hcontents, -⟩
      cases d with
      | integer m => exact ⟨m.toUInt64, s, [], (List.append_nil s).symm, hcontents, rfl, rfl⟩
      | _ => cases hkind
  | real =>
    refine ((takeBytes_takes 8).bind fun b =>
      .done (Datum.real ⟨UInt64.ofNat (ofLittleEndian b)⟩)).congr fun d s => ?_
    constructor
    · rintro ⟨b, front, rest, rfl, ⟨rfl, hlength⟩, rfl, rfl⟩
      have hlt := ofLittleEndian_lt b
      rw [hlength] at hlt
      rw [List.append_nil]
      refine ⟨rfl, ⟨hlength, ?_⟩, Nat.succ_le_succ (Nat.zero_le n)⟩
      exact (UInt64.toNat_ofNat_of_lt' hlt).symm
    · rintro ⟨hkind, hcontents, -⟩
      cases d with
      | real x =>
        refine ⟨s, s, [], (List.append_nil s).symm, ⟨rfl, hcontents.length⟩, ?_, rfl⟩
        rw [hcontents.value, UInt64.ofNat_toNat]
      | _ => cases hkind
  | string =>
    refine (Varint.decode_takes.bind fun v => (takeBytes_takes v.toNat).bind fun b =>
      .done (Datum.string b)).congr fun d s => ?_
    constructor
    · rintro ⟨v, size, _, rfl, hform, b, _, _, rfl, ⟨rfl, hlength⟩, rfl, rfl⟩
      rw [List.append_nil]
      exact ⟨rfl, ⟨v, size, rfl, hform, hlength.symm⟩, Nat.succ_le_succ (Nat.zero_le n)⟩
    · rintro ⟨hkind, hcontents, -⟩
      cases d with
      | string t =>
        obtain ⟨v, size, rfl, hform, hlength⟩ := hcontents
        exact ⟨v, size, t, rfl, hform, t, t, [], (List.append_nil t).symm, ⟨rfl, hlength.symm⟩, rfl,
          rfl⟩
      | _ => cases hkind
  | boolean =>
    refine ((takeBytes_takes 2).bind fun b =>
      .done (Datum.boolean (b == truthBytes true))).congr fun d s => ?_
    constructor
    · rintro ⟨b, front, rest, rfl, ⟨rfl, hlength⟩, rfl, rfl⟩
      rw [List.append_nil]
      exact ⟨rfl, ⟨hlength, rfl⟩, Nat.succ_le_succ (Nat.zero_le n)⟩
    · rintro ⟨hkind, hcontents, -⟩
      cases d with
      | boolean b =>
        obtain ⟨hlength, rfl⟩ := hcontents
        exact ⟨s, s, [], (List.append_nil s).symm, ⟨rfl, hlength⟩, rfl, rfl⟩
      | _ => cases hkind
  | array =>
    refine ((takeCount_takes .rows).bind fun rows => (takeCount_takes .columns).bind fun cols =>
      .checked (maxCells < rows * cols) (.corrupt (.size ⟨rows, cols⟩)) fun _ =>
        (Datum.takeMany_takes hcell (rows * cols)).bind fun cells =>
          .done (Datum.array rows cols cells)).congr fun d s => ?_
    constructor
    · rintro ⟨rows, r, _, rfl, hrows, cols, c, _, rfl, hcols, harea, cells, body, _, rfl,
        ⟨hcount, hall, hlevels⟩, rfl, rfl⟩
      rw [List.append_nil]
      -- The cells were read with one reader less, so with this one there are enough.
      exact ⟨rfl, ⟨r, c, body, rfl, hrows, hcols, Nat.le_of_not_lt harea, hcount, hall⟩,
        Nat.succ_le_succ hlevels⟩
    · rintro ⟨hkind, hcontents, hlevels⟩
      cases d with
      | array rows cols cells =>
        obtain ⟨r, c, body, rfl, hrows, hcols, harea, hcount, hall⟩ := hcontents
        exact ⟨rows, r, _, rfl, hrows, cols, c, body, rfl, hcols, Nat.not_lt.mpr harea, cells, body,
          [], (List.append_nil body).symm, ⟨hcount, hall, Nat.le_of_succ_le_succ hlevels⟩, rfl, rfl⟩
      | _ => cases hkind

/-- A tag is the one of the variant that it names. -/
theorem Kind.tag_eq_of_ofTag? {t : UInt8} {k : Kind} (h : Kind.ofTag? t = some k) : t = k.tag := by
  unfold Kind.ofTag? at h
  split at h <;> cases h <;> rfl

/-- A variant is named by its tag. -/
theorem Kind.ofTag?_tag (k : Kind) : Kind.ofTag? k.tag = some k := by
  cases k <;> rfl

/-- Behind its tag and the reserved byte a datum has its contents. -/
theorem Datum.takeWithin_tag (k : Kind) (n : Nat) (rest : Bytes) :
    Datum.takeWithin (n + 1) (k.tag :: 0 :: rest) =
      Datum.takeContents (Datum.takeWithin n) k rest := by
  have hhead : takeBytes 2 (k.tag :: 0 :: rest) = .ok ([k.tag, 0], rest) :=
    (takeBytes_takes 2 _ _ _).mpr ⟨[k.tag, 0], rfl, rfl, rfl⟩
  rw [Datum.takeWithin, hhead]
  simp only [bind, Except.bind, List.getD_cons_zero, List.getD_cons_succ, Kind.ofTag?_tag]
  rfl

/-- A datum is taken if it needs no more readers inside each other than there are. -/
theorem Datum.takeWithin_takes (n : Nat) :
    Takes (Datum.takeWithin n) fun d s => d.Form s ∧ d.levels ≤ n := by
  induction n with
  | zero =>
    -- Every datum needs a reader, and none is left.
    have hlevels : ∀ d : Datum, ¬ d.levels ≤ 0 := by
      intro d
      cases d <;> simp [Datum.levels]
    refine (Takes.never (.truncated .item)).congr fun d s => ?_
    exact ⟨False.elim, fun h => hlevels d h.2⟩
  | succ n ih =>
    intro s d rest
    constructor
    · intro h
      rw [Datum.takeWithin] at h
      obtain ⟨⟨head, behind⟩, hhead, hread⟩ := except_bind_eq_ok h
      obtain ⟨front, rfl, rfl, hlength⟩ := (takeBytes_takes 2 s head behind).mp hhead
      obtain ⟨tag, reserved, rfl⟩ := List.length_eq_two.mp hlength
      by_cases hreserved : reserved = 0
      · cases hkind : Kind.ofTag? tag with
        | none => simp [hreserved, hkind] at hread
        | some k =>
          have hcontents : Datum.takeContents (Datum.takeWithin n) k behind = .ok (d, rest) := by
            simpa [hreserved, hkind] using hread
          obtain ⟨contents, rfl, rfl, hform, hlevels⟩ :=
            (Datum.takeContents_takes ih k behind d rest).mp hcontents
          obtain rfl := Kind.tag_eq_of_ofTag? hkind
          rw [hreserved]
          exact ⟨d.kind.tag :: 0 :: contents, rfl, ⟨contents, rfl, hform⟩, hlevels⟩
      · simp [hreserved] at hread
    · rintro ⟨front, rfl, ⟨contents, rfl, hcontents⟩, hlevels⟩
      have hread := (Datum.takeContents_takes ih d.kind (contents ++ rest) d rest).mpr
        ⟨contents, rfl, rfl, hcontents, hlevels⟩
      exact (Datum.takeWithin_tag d.kind n (contents ++ rest)).trans hread

mutual

/-- A datum takes a byte at least for each reader. -/
theorem Datum.Contents.levels_le {d : Datum} {s : Bytes} (h : d.Contents s) :
    d.levels ≤ s.length + 1 := by
  match d with
  | .integer _ => exact Nat.le_add_left ..
  | .real _ => exact Nat.le_add_left ..
  | .string _ => exact Nat.le_add_left ..
  | .boolean _ => exact Nat.le_add_left ..
  | .array rows cols cells =>
    obtain ⟨r, c, body, rfl, -, -, -, -, hall⟩ := h
    have hlevels := hall.levels_le
    simp only [Datum.levels, List.length_append]
    omega

/-- Data take a byte at least for each reader. -/
theorem Datum.AllForm.levels_le {ds : List Datum} {s : Bytes} (h : Datum.AllForm ds s) :
    Datum.levelsAll ds ≤ s.length := by
  match ds with
  | [] => exact Nat.zero_le _
  | d :: ds =>
    obtain ⟨contents, rest, rfl, hd, hds⟩ := h
    have hfirst := hd.levels_le
    have hrest := hds.levels_le
    simp only [Datum.levelsAll, List.length_append, List.length_cons]
    omega

end

/-- A datum is taken in any of its forms, however deep its arrays are nested. -/
theorem Datum.take_takes : Takes Datum.take Datum.Form := by
  intro s d rest
  unfold Datum.take
  rw [Datum.takeWithin_takes]
  constructor
  · rintro ⟨front, hs, hform, -⟩
    exact ⟨front, hs, hform⟩
  · rintro ⟨front, rfl, hform⟩
    refine ⟨front, rfl, hform, ?_⟩
    obtain ⟨contents, rfl, hcontents⟩ := hform
    have hlevels := hcontents.levels_le
    simp only [List.length_append, List.length_cons]
    omega

/-! ## Instructions -/

/-- A defined operation is named by its number. -/
theorem Opcode.ofCode_code {op : Opcode} (h : op.isValid = true) : Opcode.ofCode op.code = op := by
  cases op with
  | undefined n => cases h
  | _ => rfl

/-- A number of 16 bits names the operation that has it. -/
theorem Opcode.code_ofCode (c : UInt16) : (Opcode.ofCode c).code = c := by
  unfold Opcode.ofCode
  by_cases hc : c.toNat < 28
  · have hall : ∀ k : Fin 28, (Opcode.all[k.val]?.map fun op => op.code.toNat) = some k.val := by
      decide
    have hcode := hall ⟨c.toNat, hc⟩
    cases hop : Opcode.all[c.toNat]? with
    | none => simp [hop] at hcode
    | some op =>
      simp only [hop, Option.map_some, Option.some.injEq] at hcode
      exact UInt16.toNat_inj.mp hcode
  · rw [List.getElem?_eq_none (Nat.not_lt.mp hc)]
    rfl

/-- The operation of an instruction is the one that its two bytes name. -/
theorem Opcode.ofCode_eq_iff {word : Bytes} (h : word.length = 2) {op : Opcode}
    (hvalid : op.isValid = true) :
    Opcode.ofCode (UInt16.ofNat (ofLittleEndian word)) = op ↔ Word 2 op.code.toNat word := by
  have hlt := ofLittleEndian_lt word
  rw [h] at hlt
  have hnumber : (UInt16.ofNat (ofLittleEndian word)).toNat = ofLittleEndian word :=
    UInt16.toNat_ofNat_of_lt' hlt
  constructor
  · rintro rfl
    exact ⟨h, by rw [Opcode.code_ofCode, hnumber]⟩
  · rintro ⟨-, hvalue⟩
    rw [hvalue, UInt16.ofNat_toNat, Opcode.ofCode_code hvalid]

/-- Behind the number of a defined operation its operand is taken, if it carries one. -/
theorem Instruction.operand_takes (op : Opcode) :
    Takes (α := Instruction) (fun s =>
      if !op.hasOperand then .ok ({ op }, s)
      else do
        let (n, rest) ← Varint.decode s
        if op = .frame && maxCells < n.toNat then .error (.corrupt (.frame n.toNat))
        else return ({ op, operand := n }, rest))
      fun i s => i.op = op ∧ i = i.bare ∧
        (if op.hasOperand then Varint.Form i.operand s else s = []) ∧
        (op = .frame → i.operand.toNat ≤ maxCells) := by
  cases hoperand : op.hasOperand with
  | false =>
    refine (Takes.done ({ op } : Instruction)).congr fun i s => ?_
    constructor
    · rintro ⟨rfl, rfl⟩
      refine ⟨rfl, ?_, rfl, fun _ => Nat.zero_le _⟩
      simp [Instruction.bare]
    · rintro ⟨rfl, hbare, hs, -⟩
      refine ⟨?_, hs⟩
      rw [hbare]
      simp [Instruction.bare, hoperand]
  | true =>
    refine (Varint.decode_takes.bind fun n =>
      .checked ((decide (op = .frame) && decide (maxCells < n.toNat)) = true)
        (.corrupt (.frame n.toNat)) fun _ =>
          .done ({ op, operand := n } : Instruction)).congr fun i s => ?_
    constructor
    · rintro ⟨n, front, _, rfl, hform, hsize, rfl, rfl⟩
      rw [List.append_nil]
      refine ⟨rfl, by simp [Instruction.bare, hoperand], hform, fun hframe => ?_⟩
      simpa [hframe] using hsize
    · rintro ⟨rfl, hbare, hform, hsize⟩
      refine ⟨i.operand, s, [], (List.append_nil s).symm, hform, ?_, ?_, rfl⟩
      · by_cases hframe : i.op = .frame
        · simpa [hframe] using hsize hframe
        · simp [hframe]
      · rw [hbare]
        simp [Instruction.bare, hoperand]

/-- An instruction is taken in any of its forms. -/
theorem Instruction.take_takes : Takes Instruction.take Instruction.Form := by
  refine ((takeBytes_takes 2).bind fun word =>
    .checked ((!(Opcode.ofCode (UInt16.ofNat (ofLittleEndian word))).isValid) = true)
      (.unknownOpcode (Opcode.ofCode (UInt16.ofNat (ofLittleEndian word))).code) fun _ =>
        Instruction.operand_takes (Opcode.ofCode (UInt16.ofNat (ofLittleEndian word)))).congr
          fun i s => ?_
  constructor
  · rintro ⟨word, _, operand, rfl, ⟨rfl, hlength⟩, hvalid, hop, hbare, hoperand, hsize⟩
    rw [← hop] at hvalid hoperand hsize
    have hvalid : i.op.isValid = true := by simpa using hvalid
    exact ⟨word, operand, rfl, hbare, hvalid, (Opcode.ofCode_eq_iff hlength hvalid).mp hop.symm,
      hoperand, hsize⟩
  · rintro ⟨word, operand, rfl, hbare, hvalid, hword, hoperand, hsize⟩
    have hop := (Opcode.ofCode_eq_iff hword.length hvalid).mpr hword
    refine ⟨word, word, operand, rfl, ⟨rfl, hword.length⟩, ?_⟩
    rw [hop]
    exact ⟨by simp [hvalid], rfl, hbare, hoperand, hsize⟩

/-! ## Files -/

/-- The fields of a header, and what stands behind it. -/
structure Header.Form (h : Header) (s body : Bytes) (count size length reserved time : Bytes) :
    Prop where
  parts : s = Image.marker ++ count ++ size ++ length ++ reserved ++ time ++ body
  constants : Word 4 h.constants count
  instructions : Word 4 h.instructions size
  length : Word 8 s.length length
  total : h.length = s.length
  reserved : reserved.length = 16
  time : ∃ t, Word 8 t time ∧ h.created = Instant.decode (UInt64.ofNat t)

/-- The header takes 56 bytes. -/
theorem Header.Form.length_front (hform : h.Form s body count size length reserved time) :
    (Image.marker ++ count ++ size ++ length ++ reserved ++ time).length = headerSize := by
  simp only [List.length_append, hform.constants.length, hform.instructions.length,
    hform.length.length, hform.reserved, hform.time.choose_spec.1.length]
  rfl

/-- What stands behind the header. -/
theorem Header.Form.body_eq (hform : h.Form s body count size length reserved time) :
    s.drop headerSize = body := by
  rw [hform.parts]
  exact List.drop_left' hform.length_front

/-- The length of a file with its header. -/
theorem Header.Form.length_eq (hform : h.Form s body count size length reserved time) :
    s.length = headerSize + body.length := by
  rw [hform.parts, List.length_append, hform.length_front]

/-- A field is what stands between what is in front of it and what is behind it. -/
theorem field_append {a b c s : Bytes} {start width : Nat} (hs : s = a ++ (b ++ c))
    (ha : a.length = start) (hb : b.length = width) : (s.drop start).take width = b := by
  subst hs ha hb
  rw [List.drop_left, List.take_left]

/-- A header is read exactly if the bytes begin with one. -/
theorem Image.decodeHeader_iff (s : Bytes) (h : Header) :
    Image.decodeHeader s = .ok h ↔
      ∃ body count size length reserved time, h.Form s body count size length reserved time := by
  constructor
  · intro hs
    unfold Image.decodeHeader at hs
    simp only at hs
    split at hs
    · cases hs
    rename_i hsize
    split at hs
    · cases hs
    rename_i hmarker
    split at hs
    · cases hs
    rename_i hlength
    cases hs
    have hsize : 56 ≤ s.length := Nat.le_of_not_lt hsize
    -- The file is as long as a header, so no field of the header is cut off.
    have hfield : ∀ a w, a + w ≤ 56 → ((s.drop a).take w).length = w := by
      intro a w hle
      rw [List.length_take, List.length_drop]
      omega
    refine ⟨s.drop headerSize, (s.drop 16).take 4, (s.drop 20).take 4, (s.drop 24).take 8,
      (s.drop 32).take 16, (s.drop 48).take 8, ?_⟩
    constructor
    · rw [← not_not.mp hmarker, ← List.take_add, ← List.take_add, ← List.take_add, ← List.take_add,
        ← List.take_add]
      exact (List.take_append_drop 56 s).symm
    · exact ⟨hfield 16 4 (by decide), rfl⟩
    · exact ⟨hfield 20 4 (by decide), rfl⟩
    · exact ⟨hfield 24 8 (by decide), not_not.mp hlength⟩
    · exact not_not.mp hlength
    · exact hfield 32 16 (by decide)
    · exact ⟨_, ⟨hfield 48 8 (by decide), rfl⟩, rfl⟩
  · rintro ⟨body, count, size, length, reserved, time, hform⟩
    obtain ⟨hparts, hconstants, hcode, hlength, htotal, hreserved, t, htime, hcreated⟩ := hform
    have hbytes : s.length = 56 + body.length := by
      rw [hparts]
      simp only [List.length_append, hconstants.length, hcode.length, hlength.length, hreserved,
        htime.length]
      rfl
    have hmarker : s.take 16 = Image.marker := by
      rw [hparts]
      rfl
    -- Each field is found again where the widths of those in front of it add up to.
    have hcount : (s.drop 16).take 4 = count :=
      field_append (a := Image.marker) (c := size ++ length ++ reserved ++ time ++ body)
        (by rw [hparts]; simp only [List.append_assoc]) rfl hconstants.length
    have hsize : (s.drop 20).take 4 = size :=
      field_append (a := Image.marker ++ count) (c := length ++ reserved ++ time ++ body)
        (by rw [hparts]; simp only [List.append_assoc])
        (by rw [List.length_append, hconstants.length]; rfl) hcode.length
    have hwhole : (s.drop 24).take 8 = length :=
      field_append (a := Image.marker ++ count ++ size) (c := reserved ++ time ++ body)
        (by rw [hparts]; simp only [List.append_assoc])
        (by simp only [List.length_append, hconstants.length, hcode.length]; rfl) hlength.length
    have hstamp : (s.drop 48).take 8 = time :=
      field_append (a := Image.marker ++ count ++ size ++ length ++ reserved) (c := body)
        (by rw [hparts]; simp only [List.append_assoc])
        (by
          simp only [List.length_append, hconstants.length, hcode.length, hlength.length,
            hreserved]
          rfl) htime.length
    unfold Image.decodeHeader
    simp only [hmarker, hcount, hsize, hwhole, hstamp, hlength.value, hconstants.value, hcode.value,
      htime.value, ← hcreated, ← htotal]
    rw [if_neg (by unfold headerSize; omega), if_neg (by simp), if_neg (by simp)]

/-- Items of two bytes at least take two bytes each at least. -/
theorem Each.two_mul_le {form : α → Bytes → Prop} (h : ∀ a s, form a s → 2 ≤ s.length) {as : List α}
    (hall : Each form as s) : 2 * as.length ≤ s.length := by
  induction as generalizing s with
  | nil => exact Nat.zero_le _
  | cons a as ih =>
    obtain ⟨front, rest, rfl, hfront, hrest⟩ := hall
    have hfirst := h a front hfront
    have hothers := ih hrest
    rw [List.length_cons, List.length_append]
    omega

/-- Behind the header there are two bytes at least for each constant and each instruction, so the
counts are never too large for a file that is in the format. -/
theorem Image.counts_le {image : Image} {constants code : Bytes}
    (hconstants : Each Datum.Form image.constants constants)
    (hcode : Each Instruction.Form image.code code) :
    2 * (image.constants.length + image.code.length) ≤ (constants ++ code).length := by
  have hdata : ∀ (d : Datum) s, d.Form s → 2 ≤ s.length := by
    rintro d s ⟨contents, rfl, -⟩
    exact Nat.le_add_left 2 _
  have hitems : ∀ (i : Instruction) s, i.Form s → 2 ≤ s.length := by
    rintro i s ⟨word, operand, rfl, -, -, hword, -⟩
    rw [List.length_append, hword.length]
    exact Nat.le_add_right 2 _
  have hfirst := hconstants.two_mul_le hdata
  have hsecond := hcode.two_mul_le hitems
  rw [List.length_append]
  omega

/-- The header of a file in the format, and what stands behind it. -/
theorem Image.Form.header_form {image : Image} (h : image.Form s) :
    ∃ constants code count size length reserved time,
      (⟨image.constants.length, image.code.length, s.length, image.created⟩ : Header).Form s
        (constants ++ code) count size length reserved time ∧
      Each Datum.Form image.constants constants ∧ Each Instruction.Form image.code code := by
  obtain ⟨count, size, length, reserved, time, constants, code, hparts, hcount, hsize, hlength,
    hreserved, htime, hdata, hcode⟩ := h
  exact ⟨constants, code, count, size, length, reserved, time,
    ⟨hparts, hcount, hsize, hlength, rfl, hreserved, htime⟩, hdata, hcode⟩

/-- A file is read exactly if it is in the format, as what the format says. -/
theorem Image.decode_iff (s : Bytes) (image : Image) :
    Image.decode s = .ok image ↔ image.Form s := by
  have hdata := takeItems_takes Datum.take_takes .constant
  have hcode := takeItems_takes Instruction.take_takes .instruction
  constructor
  · intro hs
    unfold Image.decode at hs
    obtain ⟨h, hheader, hs⟩ := except_bind_eq_ok hs
    obtain ⟨body, count, size, length, reserved, time, hform⟩ :=
      (Image.decodeHeader_iff s h).mp hheader
    rw [hform.body_eq] at hs
    simp only at hs
    split at hs
    · cases hs
    obtain ⟨⟨constants, middle⟩, hconstants, hs⟩ := except_bind_eq_ok hs
    obtain ⟨⟨code, rest⟩, hinstructions, hs⟩ := except_bind_eq_ok hs
    simp only at hs
    split at hs
    swap
    · cases hs
    rename_i hrest
    obtain rfl := List.isEmpty_iff.mp hrest
    cases hs
    obtain ⟨front, rfl, hcount, hall⟩ := (hdata h.constants _ _ _).mp hconstants
    obtain ⟨behind, rfl, hcount', hall'⟩ := (hcode h.instructions _ _ _).mp hinstructions
    rw [List.append_nil] at hform
    exact ⟨count, size, length, reserved, time, front, behind, hform.parts,
      hcount ▸ hform.constants, hcount' ▸ hform.instructions, hform.length, hform.reserved,
      hform.time, hall, hall'⟩
  · intro hs
    obtain ⟨constants, code, _, _, _, _, _, hform, hall, hall'⟩ := hs.header_form
    have hheader := (Image.decodeHeader_iff s _).mpr ⟨_, _, _, _, _, _, hform⟩
    have hconstants := (hdata _ _ image.constants code).mpr ⟨constants, rfl, rfl, hall⟩
    have hinstructions := (hcode _ _ image.code []).mpr
      ⟨code, (List.append_nil code).symm, rfl, hall'⟩
    -- The limit on the counts rejects no file in the format.
    have hcounts := Image.counts_le hall hall'
    unfold Image.decode
    rw [hheader]
    simp only [bind, Except.bind, hform.body_eq]
    rw [if_neg (Nat.not_lt.mpr hcounts), hconstants]
    simp only [hinstructions]
    rfl

end StackScript
