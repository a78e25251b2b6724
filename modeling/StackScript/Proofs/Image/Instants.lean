import StackScript.Image.Instant
import StackScript.Proofs.Number.Checked

/-!
# The time of writing

A file keeps an instant as a count of ticks with a mark. On the instants whose count leaves the two
upper bits free, writing is monotone, and reading gives back the instant without the part of it that
is less than a tick. All of this is calculated in 64-bit words: the count of ticks is close to
`2 ^ 59` in 1970, and division rounds towards zero. Done with operations that notice overflow, the
calculations come to the same results (`encode?_eq`, `decode?_eq`), so no step of them overflows.
-/

namespace StackScript.Instant

/-- The instant a number of ticks after the start of the year 1. -/
def ofTicks (n : Int) : Instant :=
  let k := n - epochTicks
  ⟨k.fdiv ticksPerSecond, ((k.fmod ticksPerSecond) * 100).toNat⟩

/-- An instant without the part of it that is less than a tick of 100 ns. -/
def truncated (t : Instant) : Instant := ⟨t.seconds, t.nanos / 100 * 100⟩

/-- Nanoseconds from the start of the year 1. -/
def age (t : Instant) : Int := (t.seconds - zero.seconds) * 1000000000 + t.nanos

/-- An instant that a file can keep: its nanoseconds are less than a second, and its whole ticks
from the start of the year 1 leave the two upper bits of a word free. -/
structure Keepable (t : Instant) : Prop where
  nanos : t.nanos < 1000000000
  low : 0 ≤ t.age / 100
  high : t.age / 100 < 0x4000000000000000

/-- What `encode` calculates, unless a step of it overflows. -/
def encode? (t : Instant) : Option UInt64 := do
  let second ← Checked.ofInt t.seconds
  let whole ← Checked.mul second (.ofInt ticksPerSecond)
  let count ← Checked.add whole (.ofNat (t.nanos / 100))
  let count ← Checked.add count (.ofInt epochTicks)
  return count.toUInt64 ||| 0x4000000000000000

/-- What `ofUnixTicks` calculates, unless a step of it overflows. -/
def ofUnixTicks? (count : Int64) : Option Instant := do
  let second ← Checked.div count (.ofInt ticksPerSecond)
  let rest := count % .ofInt ticksPerSecond
  if rest < 0 then
    let second ← Checked.sub second 1
    let rest ← Checked.add rest (.ofInt ticksPerSecond)
    let nanos ← Checked.mul rest 100
    return ofUnix second.toInt nanos.toInt
  else
    let nanos ← Checked.mul rest 100
    return ofUnix second.toInt nanos.toInt

/-- What `decode` calculates, unless a step of it overflows. -/
def decode? (v : UInt64) : Option Instant := do
  let count ← Checked.sub (v &&& 0x3FFFFFFFFFFFFFFF).toInt64 (.ofInt epochTicks)
  ofUnixTicks? count

variable {t u : Instant}

/-- The age in seconds and nanoseconds. -/
theorem age_eq (t : Instant) : t.age = (t.seconds + 62135596800) * 1000000000 + t.nanos := by
  unfold age
  rw [show zero.seconds = -62135596800 from rfl]
  omega

/-- The ticks in seconds and nanoseconds. -/
theorem ticks_eq (t : Instant) :
    t.ticks = t.seconds * 10000000 + (t.nanos / 100 : Nat) + 621355968000000000 := by
  unfold ticks ticksPerSecond epochTicks
  rfl

/-- The whole ticks of an instant are the hundreds of its nanoseconds. -/
theorem ticks_eq_age (t : Instant) : t.ticks = t.age / 100 := by
  rw [ticks_eq, age_eq]
  omega

/-- The ticks of an instant lead back to it. -/
theorem ofTicks_ticks (h : t.nanos < 1000000000) : ofTicks t.ticks = t.truncated := by
  have hcount : t.ticks - epochTicks = t.seconds * 10000000 + (t.nanos / 100 : Nat) := by
    unfold ticks ticksPerSecond
    omega
  have hseconds : (t.ticks - epochTicks).fdiv ticksPerSecond = t.seconds := by
    rw [hcount, ticksPerSecond, Int.fdiv_eq_ediv_of_nonneg _ (by decide)]
    omega
  have hfraction : (t.ticks - epochTicks).fmod ticksPerSecond = (t.nanos / 100 : Nat) := by
    rw [hcount, ticksPerSecond, Int.fmod_eq_emod_of_nonneg _ (by decide)]
    omega
  unfold ofTicks truncated
  simp only [hseconds, hfraction]
  congr 1

/-- An instant at a whole number of ticks has that number of them and nothing beside them. -/
theorem ticks_ofTicks (n : Int) :
    (ofTicks n).ticks = n ∧ (ofTicks n).nanos < 1000000000 ∧ (ofTicks n).truncated = ofTicks n := by
  have hlow := Int.emod_nonneg (n - epochTicks) (b := 10000000) (by decide)
  have hhigh := Int.emod_lt_of_pos (n - epochTicks) (b := 10000000) (by decide)
  have hsum := Int.mul_ediv_add_emod (n - epochTicks) 10000000
  have hparts : ofTicks n =
      ⟨(n - epochTicks) / 10000000, ((n - epochTicks) % 10000000 * 100).toNat⟩ := by
    unfold ofTicks ticksPerSecond
    simp only [Int.fdiv_eq_ediv_of_nonneg _ (show (0 : Int) ≤ 10000000 by decide),
      Int.fmod_eq_emod_of_nonneg _ (show (0 : Int) ≤ 10000000 by decide)]
  rw [hparts]
  generalize (n - epochTicks) % 10000000 = fraction at hlow hhigh hsum ⊢
  refine ⟨?_, ?_, ?_⟩
  · unfold ticks ticksPerSecond
    show (n - epochTicks) / 10000000 * 10000000 + ((fraction * 100).toNat / 100 : Nat) +
      epochTicks = n
    omega
  · show (fraction * 100).toNat < 1000000000
    omega
  · have hhundred : (fraction * 100).toNat / 100 * 100 = (fraction * 100).toNat := by omega
    unfold truncated
    simp only [hhundred]

/-! ## Writing -/

/-- The constants of the calculations, as words. -/
theorem toInt_ticksPerSecond : (Int64.ofInt ticksPerSecond).toInt = 10000000 := by decide

/-- The ticks of the epoch fit a word. -/
theorem toInt_epochTicks : (Int64.ofInt epochTicks).toInt = 621355968000000000 := by decide

/-- Writing meets no overflow, and the mark is put in front of a count that is below it. -/
theorem encode?_eq (hnanos : t.nanos < 1000000000) (hlow : 0 ≤ t.ticks)
    (hhigh : t.ticks < 0x4000000000000000) :
    t.encode? = some t.encode ∧ t.encode.toNat = 0x4000000000000000 + t.ticks.toNat := by
  have hticks := t.ticks_eq
  -- Each word stands for the integer that the exact calculation has there.
  obtain ⟨hsecond, esecond⟩ := Checked.ofInt_eq (n := t.seconds) (by unfold FitsWord; omega)
  obtain ⟨hwhole, ewhole⟩ := Checked.mul_eq esecond toInt_ticksPerSecond
    (by unfold FitsWord; omega)
  have epart : (Int64.ofNat (t.nanos / 100)).toInt = (t.nanos / 100 : Nat) := by
    apply Int64.toInt_ofNat_of_lt
    omega
  obtain ⟨hpart, esum⟩ := Checked.add_eq ewhole epart (by unfold FitsWord; omega)
  obtain ⟨htotal, etotal⟩ := Checked.add_eq esum toInt_epochTicks (by unfold FitsWord; omega)
  refine ⟨?_, ?_⟩
  · refine Option.bind_eq_some_iff.mpr ⟨_, hsecond, Option.bind_eq_some_iff.mpr ⟨_, hwhole, ?_⟩⟩
    exact Option.bind_eq_some_iff.mpr ⟨_, hpart, Option.bind_eq_some_iff.mpr ⟨_, htotal, rfl⟩⟩
  · have hcount := toNat_toUInt64 (n := t.ticks.toNat) (etotal.trans (by omega))
    -- Both are numbers with different bits, so the mark is added.
    have hor := Nat.two_pow_add_eq_or_of_lt (i := 62) (b := t.ticks.toNat) (by omega) 1
    unfold encode
    rw [UInt64.toNat_or, hcount, Nat.or_comm]
    exact hor.symm

/-! ## Reading -/

/-- Division towards zero, made good for a negative rest, is division downwards. -/
theorem fdiv_of_tmod_neg {n d : Int} (hd : 0 < d) (h : n.tmod d < 0) :
    n.fdiv d = n.tdiv d - 1 ∧ n.fmod d = n.tmod d + d := by
  have hsum := Int.tmod_add_mul_tdiv n d
  have hrest := Int.lt_tmod_of_pos n hd
  have hback : d * (n.tdiv d - 1) = d * n.tdiv d - d := by rw [Int.mul_sub, Int.mul_one]
  rw [Int.fdiv_eq_ediv_of_nonneg _ (Int.le_of_lt hd),
    Int.fmod_eq_emod_of_nonneg _ (Int.le_of_lt hd)]
  exact (Int.ediv_emod_unique hd).mpr ⟨by omega, by omega, by omega⟩

/-- Both divisions agree when nothing negative remains. -/
theorem fdiv_of_tmod_nonneg {n d : Int} (hd : 0 < d) (h : 0 ≤ n.tmod d) :
    n.fdiv d = n.tdiv d ∧ n.fmod d = n.tmod d := by
  have hsum := Int.tmod_add_mul_tdiv n d
  have hrest := Int.tmod_lt_of_pos n hd
  rw [Int.fdiv_eq_ediv_of_nonneg _ (Int.le_of_lt hd),
    Int.fmod_eq_emod_of_nonneg _ (Int.le_of_lt hd)]
  exact (Int.ediv_emod_unique hd).mpr ⟨by omega, by omega, by omega⟩

/-- The instant a number of nanoseconds less than a second after a second. -/
theorem ofUnix_eq {second nanos : Int} (hsecond : FitsWord second) (hlow : 0 ≤ nanos)
    (hhigh : nanos < 1000000000) : ofUnix second nanos = ⟨second, nanos.toNat⟩ := by
  have hwhole : nanos.fdiv 1000000000 = 0 := by
    rw [Int.fdiv_eq_ediv_of_nonneg _ (by decide)]
    omega
  have hrest : nanos.fmod 1000000000 = nanos := by
    rw [Int.fmod_eq_emod_of_nonneg _ (by decide)]
    omega
  obtain ⟨hlow, hhigh⟩ := hsecond
  unfold ofUnix
  rw [hwhole, hrest, Int.add_zero, Int.bmod_eq_of_le (by omega) (by omega)]

section

variable {count : Int64} {k : Int}

/-- The rest of a count that stands for `k`. -/
theorem toInt_rest (ecount : count.toInt = k) :
    (count % .ofInt ticksPerSecond).toInt = k.tmod 10000000 := by
  rw [Int64.toInt_mod, ecount, toInt_ticksPerSecond]

/-- A negative rest is counted from the second before, without overflow. -/
theorem ofUnixTicks?_of_neg (ecount : count.toInt = k) (hlow : -0x4000000000000000 ≤ k)
    (hhigh : k < 0x4000000000000000) (hrest : k.tmod 10000000 < 0) :
    ofUnixTicks? count = some (ofUnixTicks count) ∧
      ofUnixTicks count = ⟨k.fdiv 10000000, (k.fmod 10000000 * 100).toNat⟩ := by
  -- What the exact calculation has fits, and it comes to the instant.
  have hsum := Int.tmod_add_mul_tdiv k 10000000
  have habove := Int.lt_tmod_of_pos k (show (0 : Int) < 10000000 by decide)
  have hfits : FitsWord (k.tdiv 10000000 - 1) ∧ FitsWord (k.tmod 10000000 + 10000000) ∧
      FitsWord ((k.tmod 10000000 + 10000000) * 100) := by
    unfold FitsWord
    omega
  have hinstant : ofUnix (k.tdiv 10000000 - 1) ((k.tmod 10000000 + 10000000) * 100) =
      ⟨k.fdiv 10000000, (k.fmod 10000000 * 100).toNat⟩ := by
    obtain ⟨hdiv, hmod⟩ := fdiv_of_tmod_neg (by decide) hrest
    rw [hdiv, hmod]
    exact ofUnix_eq hfits.1 (by omega) (by omega)
  -- The words stand for what it has.
  obtain ⟨hsecond, esecond⟩ := Checked.div_eq ecount toInt_ticksPerSecond (by decide)
  obtain ⟨hback, eback⟩ := Checked.sub_eq esecond (show (1 : Int64).toInt = 1 from rfl) hfits.1
  obtain ⟨hmade, emade⟩ := Checked.add_eq (toInt_rest ecount) toInt_ticksPerSecond hfits.2.1
  obtain ⟨hnanos, enanos⟩ := Checked.mul_eq emade (show (100 : Int64).toInt = 100 from rfl)
    hfits.2.2
  have hnegative : count % .ofInt ticksPerSecond < 0 := by
    rw [Int64.lt_iff_toInt_lt, toInt_rest ecount]
    exact hrest
  have hbranch : ofUnixTicks count = ofUnix _ _ := if_pos hnegative
  refine ⟨Option.bind_eq_some_iff.mpr ⟨_, hsecond, ?_⟩, ?_⟩
  · refine (if_pos hnegative).trans (Option.bind_eq_some_iff.mpr ⟨_, hback, ?_⟩)
    refine Option.bind_eq_some_iff.mpr ⟨_, hmade, Option.bind_eq_some_iff.mpr ⟨_, hnanos, ?_⟩⟩
    exact congrArg some hbranch.symm
  · rw [hbranch, eback, enanos, hinstant]

/-- A rest that is not negative is counted from the second itself, without overflow. -/
theorem ofUnixTicks?_of_nonneg (ecount : count.toInt = k) (hlow : -0x4000000000000000 ≤ k)
    (hhigh : k < 0x4000000000000000) (hrest : 0 ≤ k.tmod 10000000) :
    ofUnixTicks? count = some (ofUnixTicks count) ∧
      ofUnixTicks count = ⟨k.fdiv 10000000, (k.fmod 10000000 * 100).toNat⟩ := by
  have hsum := Int.tmod_add_mul_tdiv k 10000000
  have hbelow := Int.tmod_lt_of_pos k (show (0 : Int) < 10000000 by decide)
  have hfits : FitsWord (k.tdiv 10000000) ∧ FitsWord (k.tmod 10000000 * 100) := by
    unfold FitsWord
    omega
  have hinstant : ofUnix (k.tdiv 10000000) (k.tmod 10000000 * 100) =
      ⟨k.fdiv 10000000, (k.fmod 10000000 * 100).toNat⟩ := by
    obtain ⟨hdiv, hmod⟩ := fdiv_of_tmod_nonneg (by decide) hrest
    rw [hdiv, hmod]
    exact ofUnix_eq hfits.1 (by omega) (by omega)
  obtain ⟨hsecond, esecond⟩ := Checked.div_eq ecount toInt_ticksPerSecond (by decide)
  obtain ⟨hnanos, enanos⟩ := Checked.mul_eq (toInt_rest ecount)
    (show (100 : Int64).toInt = 100 from rfl) hfits.2
  have hnonneg : ¬ count % .ofInt ticksPerSecond < 0 := by
    rw [Int64.lt_iff_toInt_lt, toInt_rest ecount]
    exact Int.not_lt.mpr hrest
  have hbranch : ofUnixTicks count = ofUnix _ _ := if_neg hnonneg
  refine ⟨Option.bind_eq_some_iff.mpr ⟨_, hsecond, (if_neg hnonneg).trans ?_⟩, ?_⟩
  · exact Option.bind_eq_some_iff.mpr ⟨_, hnanos, congrArg some hbranch.symm⟩
  · rw [hbranch, esecond, enanos, hinstant]

/-- Not too many ticks become an instant without overflow. -/
theorem ofUnixTicks?_eq (ecount : count.toInt = k) (hlow : -0x4000000000000000 ≤ k)
    (hhigh : k < 0x4000000000000000) :
    ofUnixTicks? count = some (ofUnixTicks count) ∧
      ofUnixTicks count = ⟨k.fdiv 10000000, (k.fmod 10000000 * 100).toNat⟩ := by
  by_cases hrest : k.tmod 10000000 < 0
  · exact ofUnixTicks?_of_neg ecount hlow hhigh hrest
  · exact ofUnixTicks?_of_nonneg ecount hlow hhigh (Int.not_lt.mp hrest)

end

/-- Reading meets no overflow, and it gives the instant at the count in the lower bits. -/
theorem decode?_eq (v : UInt64) :
    decode? v = some (decode v) ∧ decode v = ofTicks (v.toNat % 0x4000000000000000 : Nat) := by
  have hlower : (v &&& 0x3FFFFFFFFFFFFFFF).toNat = v.toNat % 0x4000000000000000 := by
    rw [UInt64.toNat_and]
    exact Nat.and_two_pow_sub_one_eq_mod v.toNat 62
  have hbelow := Nat.mod_lt v.toNat (show 0x4000000000000000 > 0 by decide)
  have elower : (v &&& 0x3FFFFFFFFFFFFFFF).toInt64.toInt =
      (v.toNat % 0x4000000000000000 : Nat) := by
    rw [toInt_toInt64 (by omega), hlower]
  generalize v.toNat % 0x4000000000000000 = n at hbelow elower ⊢
  have hlow : -0x4000000000000000 ≤ (n : Int) - 621355968000000000 := by omega
  have hhigh : (n : Int) - 621355968000000000 < 0x4000000000000000 := by omega
  obtain ⟨hcount, ecount⟩ := Checked.sub_eq elower toInt_epochTicks (by unfold FitsWord; omega)
  obtain ⟨hticks, eticks⟩ := ofUnixTicks?_eq ecount hlow hhigh
  exact ⟨Option.bind_eq_some_iff.mpr ⟨_, hcount, hticks⟩, eticks⟩

/-! ## Both ways -/

/-- A file keeps an instant to a tick, if the count of ticks leaves the two upper bits free. -/
theorem decode_encode (hnanos : t.nanos < 1000000000) (hlow : 0 ≤ t.ticks)
    (hhigh : t.ticks < 0x4000000000000000) : decode t.encode = t.truncated := by
  obtain ⟨-, hmark⟩ := encode?_eq hnanos hlow hhigh
  have hcount : ((0x4000000000000000 + t.ticks.toNat) % 0x4000000000000000 : Nat) = t.ticks := by
    omega
  rw [(decode?_eq t.encode).2, hmark, hcount, ofTicks_ticks hnanos]

/-- What a file keeps is an instant that it can keep. -/
theorem ticks_decode (v : UInt64) :
    (decode v).ticks = (v.toNat % 0x4000000000000000 : Nat) ∧ (decode v).nanos < 1000000000 ∧
      (decode v).truncated = decode v := by
  rw [(decode?_eq v).2]
  exact ticks_ofTicks _

/-- The time that a file keeps is kept again. -/
theorem decode_encode_decode (v : UInt64) : decode (decode v).encode = decode v := by
  obtain ⟨hticks, hnanos, hwhole⟩ := ticks_decode v
  have hlow : 0 ≤ (decode v).ticks := by
    rw [hticks]
    omega
  have hhigh : (decode v).ticks < 0x4000000000000000 := by
    rw [hticks]
    omega
  calc decode (decode v).encode
      = (decode v).truncated := decode_encode hnanos hlow hhigh
    _ = decode v := hwhole

/-- Setting bit 62 of a word below bit 63 leaves the bits below it. -/
theorem or_mark (w : Nat) : w % 0x8000000000000000 ||| 0x4000000000000000 =
    0x4000000000000000 + w % 0x4000000000000000 := by
  have hset : 0x4000000000000000 + w % 0x4000000000000000 =
      0x4000000000000000 ||| w % 0x4000000000000000 :=
    Nat.two_pow_add_eq_or_of_lt (i := 62) (by omega) 1
  rcases (by omega : w % 0x8000000000000000 = w % 0x4000000000000000 ∨
      w % 0x8000000000000000 = 0x4000000000000000 + w % 0x4000000000000000) with hfree | hmarked
  · rw [hfree, hset, Nat.or_comm]
  · rw [hmarked, hset, Nat.or_comm, ← Nat.or_assoc, Nat.or_self]

/-- What was read is written as it was, but with the mark set and the bit in front of it cleared. -/
theorem encode_decode (v : UInt64) : (decode v).encode? = some (decode v).encode ∧
    (decode v).encode = (v &&& 0x7FFFFFFFFFFFFFFF) ||| 0x4000000000000000 := by
  obtain ⟨hticks, hnanos, -⟩ := ticks_decode v
  have hcount : (decode v).ticks.toNat = v.toNat % 0x4000000000000000 := by
    rw [hticks, Int.toNat_natCast]
  obtain ⟨hexact, hmark⟩ := encode?_eq hnanos (by rw [hticks]; omega) (by rw [hticks]; omega)
  have hcleared : (v &&& 0x7FFFFFFFFFFFFFFF).toNat = v.toNat % 0x8000000000000000 := by
    rw [UInt64.toNat_and]
    exact Nat.and_two_pow_sub_one_eq_mod v.toNat 63
  refine ⟨hexact, UInt64.toNat_inj.mp ?_⟩
  calc (decode v).encode.toNat
      = 0x4000000000000000 + v.toNat % 0x4000000000000000 := by rw [hmark, hcount]
    _ = v.toNat % 0x8000000000000000 ||| 0x4000000000000000 := (or_mark v.toNat).symm
    _ = ((v &&& 0x7FFFFFFFFFFFFFFF) ||| 0x4000000000000000).toNat := by
        rw [UInt64.toNat_or, hcleared]
        rfl

/-- Truncation drops less than a tick. -/
theorem age_truncated (t : Instant) : t.truncated.age = t.age / 100 * 100 := by
  rw [age_eq, age_eq]
  show (t.seconds + 62135596800) * 1000000000 + ((t.nanos / 100 * 100 : Nat) : Int) = _
  omega

/-- The count of an instant that a file can keep leaves the two upper bits free. -/
theorem Keepable.ticks (h : t.Keepable) : 0 ≤ t.ticks ∧ t.ticks < 0x4000000000000000 := by
  rw [ticks_eq_age]
  exact ⟨h.low, h.high⟩

/-- Of two instants the later one is not written as the smaller word. -/
theorem Keepable.encode_le (ht : t.Keepable) (hu : u.Keepable) (h : t.age ≤ u.age) :
    t.encode ≤ u.encode := by
  obtain ⟨-, hfirst⟩ := encode?_eq ht.nanos ht.ticks.1 ht.ticks.2
  obtain ⟨-, hsecond⟩ := encode?_eq hu.nanos hu.ticks.1 hu.ticks.2
  have hticks : t.ticks.toNat ≤ u.ticks.toNat := by
    rw [ticks_eq_age, ticks_eq_age]
    omega
  rw [UInt64.le_iff_toNat_le, hfirst, hsecond]
  exact Nat.add_le_add_left hticks _

/-- A file keeps an instant to a tick, rounded down, and later instants as larger words. A word that
is read as an instant is written again with the mark set and the bit in front of it cleared. No step
of the calculations overflows. -/
theorem kept_to_tick :
    (∀ t : Instant, t.Keepable →
      decode t.encode = t.truncated ∧ (decode t.encode).age = t.age / 100 * 100 ∧
        t.encode? = some t.encode ∧ decode? t.encode = some (decode t.encode)) ∧
    (∀ t u : Instant, t.Keepable → u.Keepable → t.age ≤ u.age → t.encode ≤ u.encode) ∧
    ∀ v : UInt64, (decode v).encode = (v &&& 0x7FFFFFFFFFFFFFFF) ||| 0x4000000000000000 ∧
      decode? v = some (decode v) ∧ (decode v).encode? = some (decode v).encode := by
  refine ⟨fun t ht => ?_, fun t u ht hu h => ht.encode_le hu h, fun v => ?_⟩
  · have hkept := decode_encode ht.nanos ht.ticks.1 ht.ticks.2
    obtain ⟨hexact, -⟩ := encode?_eq ht.nanos ht.ticks.1 ht.ticks.2
    exact ⟨hkept, hkept ▸ t.age_truncated, hexact, (decode?_eq t.encode).1⟩
  · obtain ⟨hexact, hagain⟩ := encode_decode v
    exact ⟨hagain, (decode?_eq v).1, hexact⟩

/-- An instant in 1969 that is not at a whole tick. -/
def beforeEpoch : Instant := ⟨-14182980, 123456789⟩

/-- An instant before the epoch is kept to the tick. -/
theorem kept_to_tick_beforeEpoch :
    beforeEpoch.Keepable ∧ zero.Keepable ∧ decode beforeEpoch.encode = ⟨-14182980, 123456700⟩ ∧
      zero.encode ≤ beforeEpoch.encode ∧ beforeEpoch.encode? = some beforeEpoch.encode ∧
      (decode 0xFFFFFFFFFFFFFFFF).encode = 0x7FFFFFFFFFFFFFFF := by
  have hbefore : beforeEpoch.Keepable := ⟨by decide, by decide, by decide⟩
  have hzero : zero.Keepable := ⟨by decide, by decide, by decide⟩
  obtain ⟨hkept, horder, hagain⟩ := kept_to_tick
  obtain ⟨hdecode, -, hexact, -⟩ := hkept _ hbefore
  exact ⟨hbefore, hzero, hdecode, horder _ _ hzero hbefore (by decide), hexact, (hagain _).1⟩

end StackScript.Instant
