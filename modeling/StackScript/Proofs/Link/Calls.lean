import Mathlib.Data.List.Chain
import StackScript.Link.Calls

/-!
# What calls become

Linking the calls of a stream in which no return follows another replaces every call by its own
instructions and keeps the rest, so the linked stream is the concatenation of the expansions.
-/

namespace StackScript

variable {i : Instruction} {here : List Instruction} {symbols : Symbols}

/-- The instructions that take the place of one; none for a call that cannot be linked. -/
def expansion (symbols : Symbols) (i : Instruction) : List Instruction :=
  if i.op = .call then
    match linkCall symbols i with
    | .ok here => here
    | .error _ => []
  else [i]

/-- What is no call stays. -/
theorem expansion_of_not_call (h : i.op ≠ .call) (symbols : Symbols) :
    expansion symbols i = [i] := if_neg h

/-- A call is linked. -/
theorem expansion_of_call (h : i.op = .call) (hlink : linkCall symbols i = .ok here) :
    expansion symbols i = here := by
  unfold expansion
  rw [if_pos h, hlink]

/-- The instructions that the first instruction of code becomes. -/
def linkedHead (symbols : Symbols) : List Instruction → List Instruction
  | [] => []
  | i :: rest =>
    if i.op = .call then expansion symbols i
    else if i.op = .ret && startsWithReturn rest then []
    else [i]

/-- Linking calls links the first instruction and then the rest. -/
theorem linkCalls_cons {rest out : List Instruction}
    (h : linkCalls symbols (i :: rest) = .ok out) :
    ∃ there, linkCalls symbols rest = .ok there ∧
      out = linkedHead symbols (i :: rest) ++ there ∧
      (i.op = .call → linkCall symbols i = .ok (linkedHead symbols (i :: rest))) := by
  unfold linkCalls at h
  simp only [linkedHead]
  by_cases hcall : i.op = .call
  · rw [if_pos hcall] at h
    simp only [if_pos hcall]
    cases hhere : linkCall symbols i with
    | error e =>
      rw [hhere] at h
      cases h
    | ok here =>
      cases hthere : linkCalls symbols rest with
      | error e =>
        rw [hhere, hthere] at h
        cases h
      | ok there =>
        rw [hhere, hthere] at h
        cases h
        rw [expansion_of_call hcall hhere]
        exact ⟨there, rfl, rfl, fun _ => rfl⟩
  · rw [if_neg hcall] at h
    simp only [if_neg hcall]
    split at h
    · rename_i hret
      simp only [if_pos hret]
      exact ⟨out, h, rfl, fun hop => absurd hop hcall⟩
    · rename_i hret
      simp only [if_neg hret]
      cases hthere : linkCalls symbols rest with
      | error e =>
        rw [hthere] at h
        cases h
      | ok there =>
        rw [hthere] at h
        cases h
        exact ⟨there, rfl, rfl, fun hop => absurd hop hcall⟩

/-- A stream in which no return follows another is linked instruction by instruction. -/
theorem linkCalls_eq_ok {code out : List Instruction} (h : linkCalls symbols code = .ok out)
    (hret : code.IsChain fun x y => x.op = .ret → y.op ≠ .ret) :
    out = code.flatMap (expansion symbols) ∧
      ∀ i ∈ code, i.op = .call → ∃ here, linkCall symbols i = .ok here := by
  induction code generalizing out with
  | nil =>
    cases h
    exact ⟨rfl, List.forall_mem_nil _⟩
  | cons i rest ih =>
    rw [List.isChain_cons] at hret
    obtain ⟨there, hthere, rfl, hcall⟩ := linkCalls_cons h
    obtain ⟨rfl, hcalls⟩ := ih hthere hret.2
    have hhead : linkedHead symbols (i :: rest) = expansion symbols i := by
      by_cases hop : i.op = .call
      · rw [linkedHead, if_pos hop]
      · -- Only a return in front of another one would be dropped.
        have hfollow : (i.op = .ret && startsWithReturn rest) = false := by
          cases rest with
          | nil => simp [startsWithReturn]
          | cons j rest =>
            have := hret.1 j rfl
            simpa [startsWithReturn] using this
        rw [linkedHead, if_neg hop, hfollow, expansion_of_not_call hop, if_neg (by simp)]
    rw [hhead] at hcall ⊢
    rw [List.flatMap_cons]
    exact ⟨rfl, List.forall_mem_cons.mpr ⟨fun hop => ⟨_, hcall hop⟩, hcalls⟩⟩

/-- A call that is linked passes no fewer arguments than its function needs. It becomes a host call
or, behind as many loads of false as arguments are missing, a call. -/
theorem linkCall_eq_ok (h : linkCall symbols i = .ok here) :
    ∃ f, symbols.function? i.callee = some f ∧ f.minimum ≤ i.argc ∧
      i.argc ≤ HostCall.maxArguments ∧
      (f.isHost = true ∧
          here = [{ i with
            op := .callHost, operand := HostCall.pack i.argc f.dispatch, target := [] }] ∨
        f.isHost = false ∧ i.argc ≤ f.declared ∧
          here = List.replicate (f.declared - i.argc).toNat loadFalse ++
            [{ i with argc := f.declared }]) := by
  unfold linkCall at h
  split at h
  · cases h
  · rename_i f hf
    split at h
    · cases h
    · split at h
      · cases h
      · split at h
        · rename_i hhost
          cases h
          exact ⟨f, hf, by omega, by omega, .inl ⟨hhost, rfl⟩⟩
        · rename_i hhost
          split at h
          · cases h
          · cases h
            exact ⟨f, hf, by omega, by omega, .inr ⟨by simpa using hhost, by omega, rfl⟩⟩

/-- A host call holds its number of arguments and the lower bits of the index. -/
theorem HostCall.unpack_pack {k : Nat} (hk : k ≤ maxArguments) (i : Nat) :
    unpack (pack k i) = ⟨k, i % 0x400000⟩ := by
  unfold unpack pack
  have hk : k ≤ 1023 := hk
  have hargc : ((k : Int) % 1024).toNat = k := by omega
  have hindex : ((i : Int) % 0x400000).toNat = i % 0x400000 := by omega
  rw [hargc, hindex, UInt64.toNat_ofNat']
  have hlt := Nat.mod_lt i (by decide : 0x400000 > 0)
  have hsum : k * 0x400000 + i % 0x400000 < 0x100000000 := by omega
  rw [Nat.mod_eq_of_lt (Nat.lt_of_lt_of_le hsum (by decide)), Nat.mod_eq_of_lt hsum]
  congr 1 <;> omega

end StackScript
