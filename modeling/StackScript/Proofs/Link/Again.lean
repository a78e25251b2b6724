import StackScript.Proofs.Generate.Assembly
import StackScript.Proofs.Layout.Compiled
import StackScript.Proofs.Link.Resolution

/-!
# Linking what is linked

A program can be linked again, and stays as it is. After the first time there are no markers, so
that no label moves; every call passes all arguments, so that nothing is pushed for it; no return
follows another, so that none is dropped; and every jump has the place of its label (`Final`). The
only thing that the second time checks anew is the number of arguments, which has grown to the
number of parameters where arguments were missing.
-/

namespace StackScript

variable {c : Compilation} {i o : Instruction} {places : List (Bytes × Nat)} {imports : List Import}
  {code out : List Instruction} {k : Nat} {f : Signature} {symbols : Symbols} {t : Tree Cell}

/-- Linked code: what linking leaves as it is. -/
structure Final (code : List Instruction) : Prop where
  /-- There are no markers. -/
  bare : ∀ i ∈ code, i.op ≠ .noop
  /-- No return follows another. -/
  returns : code.IsChain fun x y => x.op = .ret → y.op ≠ .ret
  /-- The code ends in a return. -/
  last : code.getLast?.map Instruction.op = some .ret
  /-- No label is on two instructions. -/
  once : (labelsOf code).Nodup
  /-- Every jump and call goes to the instruction with its label. -/
  resolved : ∀ i ∈ code, i.op.isJump = true →
    ∃ k o, code[k]? = some o ∧ o.label ≠ [] ∧ i.target = o.label ∧ i.operand = UInt64.ofNat k

/-! ## The second time -/

/-- Code without markers is not merged. -/
theorem mergeMarkers_of_bare (h : ∀ i ∈ code, i.op ≠ .noop) :
    mergeMarkers [] code = (code, []) := by
  induction code with
  | nil => rfl
  | cons i rest ih =>
    have hi : i.isMarker = false := by simp [Instruction.isMarker, h i List.mem_cons_self]
    cases rest with
    | nil => rw [mergeMarkers_single, Instruction.carrying_nil]
    | cons next rest =>
      rw [mergeMarkers_keep hi, ih fun j hj => h j (List.mem_cons_of_mem _ hj)]

/-- Each label of code in which they are distinct has the place of its instruction. -/
theorem labelPlaces_lookup (h : labelPlaces [] 0 code = .ok places) (hk : code[k]? = some o)
    (ho : o.label ≠ []) : places.lookup o.label = some k := by
  rw [(labelPlaces_eq_ok h).2.2.2 k o hk ho, Nat.zero_add]

/-- Going through a list with something that leaves every element as it is. -/
theorem mapM_eq_self {α ε : Type} {f : α → Except ε α} {xs : List α}
    (h : ∀ x ∈ xs, f x = .ok x) : xs.mapM f = .ok xs := by
  induction xs with
  | nil => rfl
  | cons x xs ih =>
    rw [List.mapM_cons, h x List.mem_cons_self, ih fun y hy => h y (List.mem_cons_of_mem _ hy)]
    rfl

/-- Linking leaves the labels of linked code as they are. -/
theorem Final.linkLabels (h : Final code) : StackScript.linkLabels code = .ok code := by
  obtain ⟨places, hplaces⟩ := exists_labelPlaces h.once
  have hmerge := mergeMarkers_of_bare h.bare
  have hcode : labelPlaces [] 0 (mergeMarkers [] code).1 = .ok places := by rw [hmerge, hplaces]
  rw [linkLabels_of_places hcode, hmerge]
  refine mapM_eq_self fun i hi => ?_
  unfold resolveJump
  cases hjump : i.op.isJump with
  | false => rfl
  | true =>
    obtain ⟨k, o, hk, ho, htarget, hoperand⟩ := h.resolved i hi hjump
    have hcanonical : canonical? [] i.target = some i.target := canonicalWithin_self (by simp) _
    simp only [Bool.not_true, Bool.false_eq_true, if_false, hcanonical]
    rw [htarget, labelPlaces_lookup hplaces hk ho]
    simp only [← htarget, ← hoperand]

/-- Linking leaves the calls of linked code as they are, if it does so with each of them. -/
theorem Final.linkCalls (h : Final code)
    (hcalls : ∀ i ∈ code, i.op = .call → linkCall symbols i = .ok [i]) :
    StackScript.linkCalls symbols code = .ok code := by
  have hreturns := h.returns
  clear h
  induction code with
  | nil => rfl
  | cons i rest ih =>
    obtain ⟨hnext, hrest⟩ := List.isChain_cons.mp hreturns
    have ih := ih (fun j hj => hcalls j (List.mem_cons_of_mem _ hj)) hrest
    rw [StackScript.linkCalls]
    by_cases hop : i.op = .call
    · rw [if_pos hop, hcalls i List.mem_cons_self hop, ih]
      rfl
    · have hfollow : (i.op = .ret && startsWithReturn rest) = false := by
        cases rest with
        | nil => simp [startsWithReturn]
        | cons j rest => simpa [startsWithReturn] using hnext j rfl
      rw [if_neg hop, hfollow, ih]
      rfl

/-- A call with all arguments stays as it is, if they are not too many. -/
theorem linkCall_of_full (hf : symbols.function? i.callee = some f) (huser : f.isHost = false)
    (hargc : i.argc = f.declared) (hminimum : f.minimum ≤ f.declared)
    (hmaximum : f.declared ≤ HostCall.maxArguments) : linkCall symbols i = .ok [i] := by
  unfold linkCall
  rw [hf]
  simp only [hargc, huser, Bool.false_eq_true, if_false, Int.not_lt.mpr hminimum,
    Int.not_lt.mpr hmaximum, Int.lt_irrefl, Int.sub_self]
  rw [← hargc]
  rfl

/-! ## The first time -/

section Merging

variable {code : List Instruction} (hown : ∀ i ∈ code, i.op = .noop → i.label ≠ [])
  (hlast : ∀ x ∈ code.getLast?, x.op ≠ .noop)
include hown hlast

/-- Merging drops all markers of code that does not end in one. -/
theorem mergeMarkers_bare : ∀ i ∈ (mergeMarkers [] code).1, i.op ≠ .noop := by
  -- As many instructions that do something are there after merging as instructions at all.
  have hops : ((mergeMarkers [] code).1.filter fun i => i.op != .noop).map Instruction.op =
      (code.filter fun i => i.op != .noop).map Instruction.op :=
    @filter_mergeMarkers _ (· != .noop) rfl _ (fun _ _ => rfl) code
  have hsame := congrArg List.length hops
  have hlength : (mergeMarkers [] code).1.length = code.countP fun i => i.op != .noop := by
    rw [← markerPlace_length, markerPlace_eq_countP hown hlast (Nat.le_refl _), List.take_length]
  rw [List.length_map, List.length_map, ← List.countP_eq_length_filter (l := code), ← hlength,
    List.length_filter_eq_length_iff] at hsame
  intro i hi
  simpa using hsame i hi

/-- What is left after merging are the instructions that do something. -/
theorem ops_mergeMarkers : (mergeMarkers [] code).1.map Instruction.op =
    (code.filter fun i => i.op != .noop).map Instruction.op := by
  have hbare : (mergeMarkers [] code).1.filter (fun i => i.op != .noop) =
      (mergeMarkers [] code).1 :=
    List.filter_eq_self.mpr fun i hi => by simpa using mergeMarkers_bare hown hlast i hi
  calc (mergeMarkers [] code).1.map Instruction.op
      = ((mergeMarkers [] code).1.filter fun i => i.op != .noop).map Instruction.op := by
        rw [hbare]
    _ = (code.filter fun i => i.op != .noop).map Instruction.op :=
        @filter_mergeMarkers _ (· != .noop) rfl _ (fun _ _ => rfl) code

end Merging

/-- Without markers, returns that stand behind values still do not follow one another. -/
theorem isChain_filter_of_backs (h : code.IsChain Backs) :
    ((code.filter fun i => i.op != .noop).IsChain fun x y => x.op = .ret → y.op ≠ .ret) ∧
      ∀ y ∈ (code.filter fun i => i.op != .noop).head?, y.op = .ret →
        ∀ x ∈ code.head?, x.op = .ret := by
  induction code with
  | nil => exact ⟨.nil, fun y hy => by cases hy⟩
  | cons i rest ih =>
    obtain ⟨hnext, hrest⟩ := List.isChain_cons.mp h
    obtain ⟨hchain, hfirst⟩ := ih hrest
    -- If a return comes first behind `i`, it stands directly behind it.
    have hdirect : ∀ y ∈ (rest.filter fun i => i.op != .noop).head?, y.op = .ret →
        i.op ≠ .noop ∧ i.op ≠ .ret := by
      intro y hy hret
      cases rest with
      | nil => cases hy
      | cons j rest => exact hnext j rfl (hfirst y hy hret j rfl)
    by_cases hop : i.op = .noop
    · rw [List.filter_cons_of_neg (by simp [hop])]
      exact ⟨hchain, fun y hy hret => absurd hop (hdirect y hy hret).1⟩
    · rw [List.filter_cons_of_pos (by simpa using hop)]
      refine ⟨List.isChain_cons.mpr ⟨fun y hy hi hret => (hdirect y hy hret).2 hi, hchain⟩, ?_⟩
      intro y hy hret x hx
      cases hy
      cases hx
      exact hret

/-- Resolving a jump keeps its label, and leaves it with a target that has a place. -/
theorem resolveJump_label {aliases : List (Bytes × Bytes)}
    (h : resolveJump aliases places i = .ok o) :
    o.label = i.label ∧ (o.op.isJump = true →
      ∃ k, places.lookup o.target = some k ∧ o.operand = UInt64.ofNat k) := by
  rcases resolveJump_cases h with ⟨hjump, rfl⟩ | ⟨-, l, place, -, hplace, rfl⟩
  · exact ⟨rfl, fun hyes => absurd (hjump.symm.trans hyes) (by decide)⟩
  · exact ⟨rfl, fun _ => ⟨place, hplace, rfl⟩⟩

/-- Going through a list keeps what each step keeps. -/
theorem mapM_map_eq {α β γ ε : Type} {f : α → Except ε β} {g : α → γ} {g' : β → γ} {xs : List α}
    {ys : List β} (h : xs.mapM f = .ok ys) (hf : ∀ x y, f x = .ok y → g' y = g x) :
    ys.map g' = xs.map g := by
  obtain ⟨hlength, hget⟩ := mapM_eq_ok h
  apply List.ext_getElem?
  intro k
  rw [List.getElem?_map, List.getElem?_map]
  cases hx : xs[k]? with
  | none =>
    have hnone : ys[k]? = none := by
      rw [List.getElem?_eq_none_iff] at hx ⊢
      omega
    rw [hnone]
    rfl
  | some x =>
    obtain ⟨y, hy, hxy⟩ := hget k x hx
    rw [hy, Option.map_some, Option.map_some, hf x y hxy]

/-- Linking the labels of code in which every return stands behind a value gives final code. -/
theorem final_of_linkLabels (h : linkLabels code = .ok out)
    (hown : ∀ i ∈ code, i.op = .noop → i.label ≠ []) (hbacks : code.IsChain Backs)
    (hlast : code.getLast?.map Instruction.op = some .ret) : Final out := by
  have hend : ∀ x ∈ code.getLast?, x.op ≠ .noop := by
    intro x hx hop
    rw [hx, Option.map_some, hop] at hlast
    cases hlast
  obtain ⟨places, hplaces, hmap⟩ := linkLabels_eq_ok h
  have hops : out.map Instruction.op = (code.filter fun i => i.op != .noop).map Instruction.op := by
    rw [← ops_mergeMarkers hown hend]
    exact mapM_map_eq hmap fun x y hxy => (resolveJump_eq_ok hxy).1
  have hlabels : out.map Instruction.label = (mergeMarkers [] code).1.map Instruction.label :=
    mapM_map_eq hmap fun x y hxy => (resolveJump_label hxy).1
  obtain ⟨hnodup, -, hother, -⟩ := labelPlaces_eq_ok hplaces
  refine ⟨fun i hi hop => ?bare, ?returns, ?last, ?once, fun i hi hjump => ?resolved⟩
  case bare =>
    have hmem : Opcode.noop ∈ out.map Instruction.op := List.mem_map.mpr ⟨i, hi, hop⟩
    rw [hops] at hmem
    obtain ⟨x, hx, hx'⟩ := List.mem_map.mp hmem
    simp [hx'] at hx
  case returns =>
    have hchain := (isChain_filter_of_backs hbacks).1
    rw [← List.isChain_map (R := fun a b => a = Opcode.ret → b ≠ .ret)] at hchain
    rw [← hops, List.isChain_map] at hchain
    exact hchain
  case last =>
    obtain ⟨x, hx, hret⟩ := Option.map_eq_some_iff.mp hlast
    rw [← List.getLast?_map, hops, List.getLast?_map]
    obtain ⟨pre, rfl⟩ := List.getLast?_eq_some_iff.mp hx
    rw [List.filter_append, List.filter_cons_of_pos (by simp [hret]), List.filter_nil,
      List.getLast?_append_of_ne_nil _ (by simp)]
    simp [hret]
  case once =>
    unfold labelsOf at hnodup ⊢
    rwa [hlabels]
  case resolved =>
    obtain ⟨q, hq, hget⟩ := List.mem_iff_getElem.mp hi
    have hq' : q < (mergeMarkers [] code).1.length := by
      rw [← (mapM_eq_ok hmap).1]
      exact hq
    obtain ⟨o, ho, hresolve⟩ := (mapM_eq_ok hmap).2 q _ (List.getElem?_eq_getElem hq')
    obtain rfl : i = o := by
      rw [List.getElem?_eq_getElem hq, hget] at ho
      exact Option.some.inj ho
    obtain ⟨k, hk, hoperand⟩ := (resolveJump_label hresolve).2 hjump
    -- A target that has a place is the label of an instruction that is left.
    have hmem : i.target ∈ labelsOf (mergeMarkers [] code).1 := by
      by_contra hnot
      rw [hother _ hnot] at hk
      cases hk
    obtain ⟨hne, x, hx, hlabel⟩ := mem_labelsOf.mp hmem
    obtain ⟨j, hj⟩ := List.mem_iff_getElem?.mp hx
    have hplace := labelPlaces_lookup hplaces hj (hlabel ▸ hne)
    rw [hlabel, hk] at hplace
    cases hplace
    obtain ⟨y, hy, hyx⟩ := (mapM_eq_ok hmap).2 k x hj
    have hylabel : y.label = i.target := (resolveJump_label hyx).1.trans hlabel
    exact ⟨k, y, hy, hylabel ▸ hne, hylabel.symm, hoperand⟩

section Expanding

variable {symbols : Symbols} {code : List Instruction}
  (hcalls : ∀ i ∈ code, i.op = .call → ∃ here, linkCall symbols i = .ok here)
include hcalls

/-- What a call becomes neither marks a place nor returns. -/
theorem expansion_backs (hi : i ∈ code) :
    expansion symbols i = [i] ∨ expansion symbols i ≠ [] ∧
      ∀ j ∈ expansion symbols i, j.op ≠ .noop ∧ j.op ≠ .ret := by
  by_cases hop : i.op = .call
  · obtain ⟨here, hhere⟩ := hcalls i hi hop
    rw [expansion_of_call hop hhere]
    obtain ⟨f, -, -, -, ⟨-, rfl⟩ | ⟨-, -, rfl⟩⟩ := linkCall_eq_ok hhere
    · refine .inr ⟨by simp, fun j hj => ?_⟩
      rw [List.mem_singleton.mp hj]
      exact ⟨by simp, by simp⟩
    · refine .inr ⟨by simp, fun j hj => ?_⟩
      rcases List.mem_append.mp hj with hj | hj
      · rw [List.eq_of_mem_replicate hj]
        decide
      · rw [List.mem_singleton.mp hj]
        simp [hop]
  · exact .inl (expansion_of_not_call hop symbols)

/-- Expanding calls keeps every return behind a value. -/
theorem expand_backs (h : code.IsChain Backs) :
    (code.flatMap (expansion symbols)).IsChain Backs := by
  induction code with
  | nil => exact .nil
  | cons i rest ih =>
    obtain ⟨hnext, hrest⟩ := List.isChain_cons.mp h
    have hcases {j : Instruction} (hj : j ∈ i :: rest) := expansion_backs hcalls hj
    rw [List.flatMap_cons]
    refine List.isChain_append.mpr ⟨?_, ih (fun j hj => hcalls j (List.mem_cons_of_mem _ hj)) hrest,
      fun x hx y hy hret => ?_⟩
    · rcases hcases List.mem_cons_self with hself | ⟨-, hsafe⟩
      · rw [hself]
        exact .singleton _
      · exact List.isChain_iff_getElem.mpr fun _ _ hret =>
          absurd hret (hsafe _ (List.getElem_mem _)).2
    · -- A return behind the expansion is an instruction of the code itself.
      cases rest with
      | nil => cases hy
      | cons j rest =>
        rw [List.flatMap_cons] at hy
        have hj : j.op = .ret := by
          rcases hcases (List.mem_cons_of_mem _ List.mem_cons_self) with hself | ⟨hne, hsafe⟩
          · rw [hself] at hy
            cases hy
            exact hret
          · rw [List.head?_append_of_ne_nil _ hne] at hy
            exact absurd hret (hsafe y (List.mem_of_mem_head? hy)).2
        rcases hcases List.mem_cons_self with hself | ⟨-, hsafe⟩
        · rw [hself] at hx
          cases hx
          exact hnext j rfl hj
        · exact hsafe x (List.mem_of_mem_getLast? hx)

end Expanding

/-- Calls pass the same arguments after their labels are linked. -/
theorem call_of_linkLabels (h : linkLabels code = .ok out) (ho : o ∈ out) (hop : o.op = .call) :
    ∃ i ∈ code, i.op = .call ∧ o.callee = i.callee ∧ o.argc = i.argc := by
  obtain ⟨places, -, hmap⟩ := linkLabels_eq_ok h
  have hmem : (o.op, o.callee, o.argc) ∈ out.map fun i => (i.op, i.callee, i.argc) :=
    List.mem_map_of_mem ho
  have hsame : (out.map fun i => (i.op, i.callee, i.argc)) =
      (mergeMarkers [] code).1.map fun i => (i.op, i.callee, i.argc) :=
    mapM_map_eq hmap fun x y hxy => by
      obtain ⟨hcallee, hargc, -⟩ := resolveJump_keeps hxy
      rw [(resolveJump_eq_ok hxy).1, hcallee, hargc]
  rw [hsame] at hmem
  obtain ⟨x, hx, heq⟩ := List.mem_map.mp hmem
  obtain ⟨hxop, hxrest⟩ := Prod.mk.inj heq
  have hkept : (x.callee, x.argc) ∈ ((mergeMarkers [] code).1.filter fun i => i.op == .call).map
      fun i => (i.callee, i.argc) :=
    List.mem_map.mpr ⟨x, List.mem_filter.mpr ⟨hx, by simp [hxop, hop]⟩, rfl⟩
  have hmerged : ((mergeMarkers [] code).1.filter fun i => i.op == .call).map
      (fun i => (i.callee, i.argc)) = (code.filter fun i => i.op == .call).map
      fun i => (i.callee, i.argc) := @filter_mergeMarkers _ (· == .call) rfl _ (fun _ _ => rfl) code
  obtain ⟨i, hi, hieq⟩ := List.mem_map.mp (hmerged ▸ hkept)
  obtain ⟨himem, hiop⟩ := List.mem_filter.mp hi
  obtain ⟨hcallee, hargc⟩ := Prod.mk.inj (hxrest.symm.trans hieq.symm)
  exact ⟨i, himem, by simpa using hiop, hcallee, hargc⟩

/-- A generated stream is linked to final code. -/
theorem WellMarked.final {expanded : List Instruction} (hmarked : WellMarked code)
    (hbacks : code.IsChain Backs) (hlast : code.getLast?.map Instruction.op = some .ret)
    (hcalls : linkCalls symbols code = .ok expanded) (hlabels : linkLabels expanded = .ok out) :
    Final out := by
  obtain ⟨rfl, hlinked⟩ := linkCalls_eq_ok hcalls hmarked.returns
  refine final_of_linkLabels hlabels (expand_marks hmarked.marks hlinked)
    (expand_backs hlinked hbacks) ?_
  obtain ⟨x, hx, hret⟩ := Option.map_eq_some_iff.mp hlast
  obtain ⟨pre, rfl⟩ := List.getLast?_eq_some_iff.mp hx
  rw [List.flatMap_append, List.flatMap_singleton,
    expansion_of_not_call (by rw [hret]; decide) symbols,
    List.getLast?_append_of_ne_nil _ (by simp)]
  simp [hret]

/-! ## Programs -/

/-- The functions of a program declare what the tree declares for them. -/
theorem declared_of_user {τ : Progress}
    (hadvances : Advances { symbols := Symbols.hosted imports } c code t.functions t.loads τ)
    (hnames : (t.functions.map Function.name).Nodup) {name : Bytes}
    (hf : c.symbols.function? name = some f) (huser : f.isHost = false) :
    ∃ d ∈ t.functions, f.declared = d.params.length ∧ f.minimum = 0 := by
  rw [function?_eq hadvances] at hf
  cases hd : functionNamed? t.functions name with
  | none =>
    rw [Symbols.function?_defineAll_of_none hd] at hf
    have hhost := ((Symbols.hosted_allHosted imports).host f (List.mem_of_find?_eq_some hf)).1
    rw [huser] at hhost
    cases hhost
  | some d =>
    obtain ⟨i, hi⟩ := Symbols.function?_defineAll_of_some hd hnames (Symbols.hosted imports)
    cases hi.symm.trans hf
    exact ⟨d, (functionNamed?_eq_some hd).1, rfl, rfl⟩

/-- A place of code in which labels are distinct is told by its label. -/
theorem Final.place_iff (h : Final code) (hk : code[k]? = some o) (ho : o.label ≠ []) (j : Nat) :
    code[j]?.map Instruction.label = some o.label ↔ j = k := by
  constructor
  · intro hj
    obtain ⟨x, hx, hlabel⟩ := Option.map_eq_some_iff.mp hj
    obtain ⟨places, hplaces⟩ := exists_labelPlaces h.once
    have hplace := labelPlaces_lookup hplaces hx (hlabel ▸ ho)
    rw [hlabel, labelPlaces_lookup hplaces hk ho] at hplace
    exact (Option.some.inj hplace).symm
  · rintro rfl
    rw [hk]
    rfl

/-- A program ends in a return. -/
theorem Tree.Emits.last {K : List Cell} (h : t.Emits K code) :
    code.getLast?.map Instruction.op = some .ret := by
  obtain ⟨b, r, ρ, -, ⟨k, -, rfl⟩, rfl⟩ := h
  rw [List.getLast?_append_of_ne_nil _ (by simp)]
  rfl

/-- What is known of a program that was generated and linked: its code is final, and linking leaves
its calls as they are. -/
theorem final_of_link {c' : Compilation} {p : Program}
    (hgenerate : t.generate (({} : Compilation).declareImports imports) = .ok () c)
    (hlink : c.link = .ok (p, c'))
    (hparams : ∀ d ∈ t.functions, d.params.length ≤ HostCall.maxArguments) :
    Final p.code.toList ∧ ∀ i ∈ p.code.toList, i.op = .call → linkCall c.symbols i = .ok [i] := by
  obtain ⟨expanded, out, hcalls, hlabels, rfl⟩ := Compilation.link_eq_ok hlink
  have hgenerate : t.generate ({ symbols := Symbols.hosted imports } : Compilation) = .ok () c :=
    hgenerate
  obtain ⟨τ, hadvances, hemits⟩ := Tree.generate_hosted hgenerate
  have hmarked := hemits.wellMarked
  refine ⟨hmarked.final hemits.backed hemits.last hcalls hlabels, fun i hi hop => ?_⟩
  have hnames := names_nodup hemits (hmarked.labels_nodup hcalls hlabels)
  obtain ⟨j, hj, hjop, hcallee, hargc⟩ := call_of_linkLabels hlabels hi hop
  obtain ⟨-, -, hfull⟩ := linkCalls_labels hcalls fun i hi => (hmarked.marks i hi).mpr
  obtain ⟨f, hf, huser, hdeclared⟩ := hfull j hj hjop
  obtain ⟨d, hd, hcount, hminimum⟩ := declared_of_user hadvances hnames hf huser
  have hmaximum := hparams d hd
  exact linkCall_of_full (hcallee ▸ hf) huser (hargc.trans hdeclared) (by omega) (by omega)

/-- Linking is idempotent. When a tree whose functions have no more parameters than a call can pass
arguments was generated and linked, linking once more gives the same program and changes nothing. In
the linked code there are no markers, no return follows another, the last instruction is a return,
and every jump and call has the place of the only instruction with the label that it goes to. -/
theorem link_again {t : Tree Cell} {imports : List Import} {c c' : Compilation} {p : Program}
    (hgenerate : t.generate (({} : Compilation).declareImports imports) = .ok () c)
    (hlink : c.link = .ok (p, c'))
    (hparams : ∀ d ∈ t.functions, d.params.length ≤ HostCall.maxArguments) :
    c'.link = .ok (p, c') ∧ (∀ i ∈ p.code, i.op ≠ .noop) ∧
    (p.code.toList.IsChain fun x y => x.op = .ret → y.op ≠ .ret) ∧
    p.code.back?.map Instruction.op = some .ret ∧
    ∀ i ∈ p.code, i.op.isJump = true → i.target ≠ [] ∧
      ∃ k, i.operand = UInt64.ofNat k ∧
        ∀ j, p.code[j]?.map Instruction.label = some i.target ↔ j = k := by
  obtain ⟨hfinal, hcalls⟩ := final_of_link hgenerate hlink hparams
  refine ⟨?again, fun i hi => hfinal.bare i (by simpa using hi), hfinal.returns, ?last, ?resolved⟩
  case again =>
    obtain ⟨expanded, out, hexpanded, hout, rfl⟩ := Compilation.link_eq_ok hlink
    have hc' : c' = { c with code := out.toArray } := by
      simp only [Compilation.link, Compilation.linkedCode, hexpanded, hout, bind, Except.bind, pure,
        Except.pure, Except.ok.injEq, Prod.mk.injEq] at hlink
      exact hlink.2.symm
    subst hc'
    simp only [Compilation.link, Compilation.linkedCode, hfinal.linkCalls hcalls,
      hfinal.linkLabels, bind, Except.bind, pure, Except.pure]
  case last => simpa [← Array.getLast?_toList] using hfinal.last
  case resolved =>
    intro i hi hjump
    obtain ⟨k, o, hk, ho, htarget, hoperand⟩ := hfinal.resolved i (by simpa using hi) hjump
    refine ⟨htarget ▸ ho, k, hoperand, fun j => ?_⟩
    rw [htarget, ← Array.getElem?_toList]
    exact hfinal.place_iff hk ho j

/-- A program with a call to which an argument is missing, a call of the host, a function inside a
loop and one that ends in a return. -/
def Tree.linkedOften : Tree Cell :=
  ⟨{}, [.countLoop {} [] (.literal {} (some (.integer 2))) (.block {}
      [.define {} "f" ["a", "b"] (.giveBack {} (.load {} "b")),
        .branch {} (.call {} "f" [.literal {} (some (.boolean true))]) (.leave {}) .absent]),
    .perform {} "print" [.call {} "f" []]]⟩

/-- This program stays as it is when it is linked again. -/
theorem link_again_linkedOften : ∃ c c' p,
    Tree.linkedOften.generate (({} : Compilation).declareImports [⟨"print", 1⟩]) = .ok () c ∧
    c.link = .ok (p, c') ∧ p.code.size = 33 ∧ c'.link = .ok (p, c') := by
  obtain ⟨p, h, hsize⟩ := exists_compile .linkedOften [⟨"print", 1⟩] (fun p => p.code.size = 33)
    (by decide +kernel)
  unfold compile Compilation.build at h
  split at h
  · cases h
  · rename_i c hgenerate
    split at h
    · cases h
    · rename_i p' c' hlink
      cases h
      exact ⟨c, c', p, hgenerate, hlink, hsize, (link_again hgenerate hlink (by decide)).1⟩

end StackScript
