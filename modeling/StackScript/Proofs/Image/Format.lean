import Mathlib.Tactic.Ring
import StackScript.Image.Decode
import StackScript.Proofs.Value.Data

/-!
# The format of program files

What bytes are a program file, said without reading them. A number of varying length has at most ten
bytes, of which exactly the last has a clear top bit, and it need not be in the fewest; a datum is a
tag, a zero and its contents; an instruction is a number of two bytes and an operand if it carries
one; a file is a header and as many of both as the header says, with nothing behind them.

Each reader is then shown to take exactly the forms of what it gives off the front: `Takes` says so
in both directions, and it is put together as readers are.
-/

namespace StackScript

variable {α β : Type}

/-! ## Forms -/

/-- Bytes are a number in a fixed width, the least significant byte first. -/
structure Word (width n : Nat) (s : Bytes) : Prop where
  length : s.length = width
  value : ofLittleEndian s = n

namespace Varint

/-- The number that groups of seven bits stand for, the lowest group first. -/
def value : Bytes → Nat
  | [] => 0
  | b :: bs => b.toNat % 128 + 128 * value bs

/-- The top bit is set on every byte but the last. -/
def Closed : Bytes → Prop
  | [] => False
  | [b] => b < 0x80
  | b :: bs => 0x80 ≤ b ∧ Closed bs

/-- Bytes are a number of 64 bits in groups of seven, of which there may be more than it needs. -/
structure Form (v : UInt64) (s : Bytes) : Prop where
  closed : Closed s
  length : s.length ≤ maxLength
  value : Varint.value s = v.toNat

/-- Bytes are a number that counts rows, columns or slots. -/
structure CountForm (n : Nat) (s : Bytes) : Prop where
  form : Form (UInt64.ofNat n) s
  le : n ≤ maxCells

end Varint

/-- Bytes are forms of items, one after the other. -/
def Each (form : α → Bytes → Prop) : List α → Bytes → Prop
  | [], s => s = []
  | a :: as, s => ∃ front rest, s = front ++ rest ∧ form a front ∧ Each form as rest

/-- The variant of a datum. -/
def Datum.kind : Datum → Kind
  | .integer _ => .integer
  | .real _ => .real
  | .string _ => .string
  | .boolean _ => .boolean
  | .array _ _ _ => .array

mutual

/-- Bytes are the contents of a datum. Every two bytes are a truth value. -/
def Datum.Contents : Datum → Bytes → Prop
  | .integer n, s => Varint.Form n.toUInt64 s
  | .real x, s => Word 8 x.bits.toNat s
  | .string t, s => ∃ n size, s = size ++ t ∧ Varint.Form n size ∧ n.toNat = t.length
  | .boolean b, s => s.length = 2 ∧ b = (s == truthBytes true)
  | .array rows cols cells, s =>
    ∃ r c body, s = r ++ (c ++ body) ∧ Varint.CountForm rows r ∧ Varint.CountForm cols c ∧
      rows * cols ≤ maxCells ∧ cells.length = rows * cols ∧ Datum.AllForm cells body

/-- Bytes are data, one after the other: each is a tag, a zero and the contents. -/
def Datum.AllForm : List Datum → Bytes → Prop
  | [], s => s = []
  | d :: ds, s =>
    ∃ contents rest, s = d.kind.tag :: 0 :: contents ++ rest ∧ d.Contents contents ∧
      Datum.AllForm ds rest

end

/-- Bytes are a datum: a tag, a zero and the contents. -/
def Datum.Form (d : Datum) (s : Bytes) : Prop :=
  ∃ contents, s = d.kind.tag :: 0 :: contents ∧ d.Contents contents

/-- What a program file keeps of an instruction: its operation and, if it carries one, its
operand. -/
def Instruction.bare (i : Instruction) : Instruction :=
  { op := i.op, operand := if i.op.hasOperand then i.operand else 0 }

/-- Bytes are an instruction: the number of a defined operation and, if it carries one, the operand,
which is not too large for the size of a frame. -/
def Instruction.Form (i : Instruction) (s : Bytes) : Prop :=
  ∃ word operand, s = word ++ operand ∧ i = i.bare ∧ i.op.isValid = true ∧
    Word 2 i.op.code.toNat word ∧
    (if i.op.hasOperand then Varint.Form i.operand operand else operand = []) ∧
    (i.op = .frame → i.operand.toNat ≤ maxCells)

/-- Bytes are a program file. -/
def Image.Form (image : Image) (s : Bytes) : Prop :=
  ∃ count size length reserved time constants code : Bytes,
    s = marker ++ count ++ size ++ length ++ reserved ++ time ++ (constants ++ code) ∧
    Word 4 image.constants.length count ∧ Word 4 image.code.length size ∧
    Word 8 s.length length ∧ reserved.length = 16 ∧
    (∃ t, Word 8 t time ∧ image.created = Instant.decode (UInt64.ofNat t)) ∧
    Each Datum.Form image.constants constants ∧ Each Instruction.Form image.code code

/-! ## Exact readers -/

/-- A reader takes exactly the forms of what it gives off the front. -/
def Takes (item : Bytes → Except ImageError (α × Bytes)) (form : α → Bytes → Prop) : Prop :=
  ∀ s a rest, item s = .ok (a, rest) ↔ ∃ front, s = front ++ rest ∧ form a front

namespace Takes

variable {item : Bytes → Except ImageError (α × Bytes)} {form : α → Bytes → Prop}

/-- A form said in other words. -/
theorem congr {form' : α → Bytes → Prop} (h : Takes item form)
    (hform : ∀ a s, form a s ↔ form' a s) : Takes item form' := by
  intro s a rest
  simp only [h s a rest, hform]

/-- A reader that takes nothing. -/
theorem done (a : α) : Takes (fun s => .ok (a, s)) fun b s => b = a ∧ s = [] := by
  intro s b rest
  constructor
  · intro h
    cases h
    exact ⟨[], rfl, rfl, rfl⟩
  · rintro ⟨front, rfl, rfl, rfl⟩
    rfl

/-- A reader that always fails. -/
theorem never (e : ImageError) : Takes (fun _ => .error e) fun (_ : α) _ => False := by
  intro s a rest
  constructor
  · intro h
    cases h
  · rintro ⟨_, _, h⟩
    exact h.elim

/-- One reader behind another. -/
theorem bind {next : α → Bytes → Except ImageError (β × Bytes)} {form' : α → β → Bytes → Prop}
    (h : Takes item form) (h' : ∀ a, Takes (next a) (form' a)) :
    Takes (fun s => item s >>= fun x => next x.1 x.2) fun b s =>
      ∃ a front rest, s = front ++ rest ∧ form a front ∧ form' a b rest := by
  intro s b rest
  constructor
  · intro hs
    obtain ⟨⟨a, middle⟩, hfirst, hnext⟩ := except_bind_eq_ok hs
    obtain ⟨front, rfl, hfront⟩ := (h s a middle).mp hfirst
    obtain ⟨behind, hbehind, hform⟩ := (h' a middle b rest).mp hnext
    refine ⟨front ++ behind, ?_, a, front, behind, rfl, hfront, hform⟩
    rw [List.append_assoc, ← hbehind]
  · rintro ⟨-, hs, a, front, behind, rfl, hfront, hform⟩
    have hfirst := (h s a (behind ++ rest)).mpr ⟨front, by rw [hs, List.append_assoc], hfront⟩
    have hnext := (h' a (behind ++ rest) b rest).mpr ⟨behind, rfl, hform⟩
    change (item s >>= fun x => next x.1 x.2) = _
    rw [hfirst]
    exact hnext

/-- A reader behind a check. -/
theorem checked (bad : Prop) [Decidable bad] (e : ImageError) (h : ¬ bad → Takes item form) :
    Takes (fun s => if bad then .error e else item s) fun a s => ¬ bad ∧ form a s := by
  by_cases hbad : bad
  · simp only [hbad, if_true, not_true_eq_false, false_and]
    exact never e
  · simp only [hbad, if_false, not_false_eq_true, true_and]
    exact h hbad

end Takes

end StackScript
