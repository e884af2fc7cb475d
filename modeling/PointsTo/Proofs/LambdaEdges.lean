import Mathlib.Data.List.Basic
import PointsTo.Lambda
import PointsTo.Proofs.FlowEdges

/-!
# Where the values of a lambda go

Captured values and arguments are lined up with the parameters in two loops, which count from
different ends.  Together they do something simple: the captured values and the arguments form one
list, an instance method that is no constructor takes the first of them as its receiver, and the
rest go to the parameters one by one, as far as there are both.

Main results:

- {lit}`Lambda.sources`, {lit}`Lambda.receivers`: the list, and how many receivers it begins with.
- Theorem {lit}`Lambda.wiring_eq_zipWith`: the flow along a lambda edge in these terms.
- {lit}`Lambda.Wires`, and theorem {lit}`Lambda.mem_wiring`: the same, edge by edge.
-/

namespace PointsTo.Lambda

variable {p : Program} {e : CallEdge} {call : LambdaCall} {f : FlowEdge}

/-! ## One list of values -/

/-- The variables whose values are passed along a lambda edge: those that were captured under the
context of the lambda, and then the arguments under that of the caller. -/
def sources (p : Program) (e : CallEdge) (call : LambdaCall) : List Pointer :=
  call.captured.map (varPointer call.lambdaContext) ++
    (p.invoke e.site.item).args.map (varPointer e.site.context)

/-- The values are captured variables and arguments. -/
theorem mem_sources {source : Pointer} : source ∈ sources p e call ↔
    (∃ v ∈ call.captured, source = varPointer call.lambdaContext v) ∨
      ∃ v ∈ (p.invoke e.site.item).args, source = varPointer e.site.context v := by
  simp only [sources, List.mem_append, List.mem_map, eq_comm]

/-- How many of the values are receivers. -/
def receivers (m : Method) : Nat := if m.isStatic || m.isConstructor then 0 else 1

/-- A constructor takes none of them as its receiver. -/
theorem not_constructor_of_receivers {m : Method} (h : receivers m = 1) :
    m.isConstructor = false := by
  unfold receivers at h
  split at h
  · cases h
  · rename_i hno
    simp only [Bool.or_eq_true, not_or, Bool.not_eq_true] at hno
    exact hno.2

/-- Both lists together provide as many receivers as the method has. -/
theorem shiftK_add_shiftN (captured : Nat) (m : Method) :
    (Shift.ofMethod captured m).shiftK + (Shift.ofMethod captured m).shiftN = receivers m := by
  unfold Shift.ofMethod Shift.compute receivers
  split
  · rfl
  · split <;> rfl

/-- Where values are captured, they provide the receivers. -/
theorem shiftK_eq {captured : Nat} (h : 0 < captured) (m : Method) :
    (Shift.ofMethod captured m).shiftK = receivers m := by
  unfold Shift.ofMethod Shift.compute receivers
  rw [if_pos h]
  split <;> rfl

/-- Values that are numbered from {lit}`n` on go to the parameters {lit}`r` places before. -/
theorem filterMap_zipIdx_minus? {α β γ : Type} (make : α → β → γ) (xs : List α) (params : List β)
    (r n : Nat) :
    ((xs.zipIdx n).filterMap fun (x, i) =>
        ((Shift.minus? i r).bind fun j => params[j]?).map fun param => make x param) =
      List.zipWith make (xs.drop (r - n)) (params.drop (n - r)) := by
  induction xs generalizing n with
  | nil => simp
  | cons x xs ih =>
      rw [List.zipIdx_cons, List.filterMap_cons, ih]
      by_cases hn : r ≤ n
      · -- the receivers are passed over, so this value goes to the next parameter
        have hskip : r - n = 0 := by omega
        have hskip' : r - (n + 1) = 0 := by omega
        have hnext : n + 1 - r = (n - r) + 1 := by omega
        simp only [Shift.minus?, if_pos hn, Option.bind_some]
        rw [hskip, hskip', List.drop_zero,
          List.drop_zero, hnext, List.drop_eq_getElem?_toList_append (i := n - r)]
        cases hparam : params[n - r]? with
        | some param => rfl
        | none =>
            have hend : params.drop (n - r + 1) = [] := by
              rw [List.drop_eq_nil_iff]
              exact Nat.le_succ_of_le (List.getElem?_eq_none_iff.1 hparam)
            simp [hend]
      · have hskip : r - n = (r - (n + 1)) + 1 := by omega
        have hnone : n - r = 0 := by omega
        have hnone' : n + 1 - r = 0 := by omega
        simp only [Shift.minus?, if_neg hn, Option.bind_none, Option.map_none]
        rw [hskip, hnone, hnone', List.drop_succ_cons]

/-- The flow of values to the parameters, from both lists. -/
theorem capturedEdges_append_actualEdges (call : LambdaCall) (args : List VarId)
    (caller target : ContextId) (m : Method) :
    capturedEdges (Shift.ofMethod call.captured.length m) call m.params target ++
        actualEdges (Shift.ofMethod call.captured.length m) args caller m.params target =
      List.zipWith
        (fun source param =>
          (⟨source, varPointer target param, .parameterPassing, none⟩ : FlowEdge))
        ((call.captured.map (varPointer call.lambdaContext) ++
          args.map (varPointer caller)).drop (receivers m)) m.params := by
  have hall := filterMap_zipIdx_minus?
    (fun source param => (⟨source, varPointer target param, .parameterPassing, none⟩ : FlowEdge))
    (call.captured.map (varPointer call.lambdaContext) ++ args.map (varPointer caller)) m.params
    (receivers m) 0
  rw [Nat.sub_zero, Nat.zero_sub, List.drop_zero] at hall
  rw [← hall, List.zipIdx_append, List.filterMap_append, List.zipIdx_map, List.zipIdx_map,
    List.filterMap_map, List.filterMap_map, List.length_map]
  congr 1
  · -- if nothing is captured there is nothing to compare
    refine List.filterMap_congr fun ⟨v, i⟩ hmem => ?_
    have hpos : 0 < call.captured.length :=
      List.length_pos_of_mem ((List.mem_zipIdx' hmem).2 ▸ List.getElem_mem _)
    simp only [Shift.capturedParam?, shiftK_eq hpos, Function.comp_apply, Prod.map_apply, id_eq]
  · rw [Nat.zero_add, List.zipIdx_eq_map_add, List.filterMap_map]
    refine List.filterMap_congr fun ⟨v, i⟩ _ => ?_
    have hcaptured : (Shift.ofMethod call.captured.length m).captured = call.captured.length := by
      unfold Shift.ofMethod Shift.compute
      split
      · rfl
      · split <;> rfl
    simp only [Shift.actualParam?, shiftK_add_shiftN, hcaptured, Function.comp_apply,
      Prod.map_apply, id_eq]

/-- The variable that provides the receiver is the first of the list. -/
theorem receiverSource?_eq_head? (call : LambdaCall) (args : List VarId) (caller : ContextId)
    (m : Method) :
    receiverSource? (Shift.ofMethod call.captured.length m) call args caller =
      if receivers m = 1 then
        (call.captured.map (varPointer call.lambdaContext) ++ args.map (varPointer caller)).head?
      else none := by
  unfold receiverSource? Shift.capturedReceiver Shift.actualReceiver Shift.ofMethod Shift.compute
    receivers
  split
  · simp
  · cases hcaptured : call.captured with
    | nil => cases args <;> simp
    | cons v vs => simp

/-- The flow along a lambda edge: to the parameters, to the receiver, and to the result. -/
theorem wiring_eq_zipWith (p : Program) (e : CallEdge) (call : LambdaCall) :
    wiring p e call =
      List.zipWith
        (fun source param =>
          (⟨source, varPointer e.callee.context param, .parameterPassing, none⟩ : FlowEdge))
        ((sources p e call).drop (receivers (p.method e.callee.item)))
        (p.method e.callee.item).params ++
      (match (p.method e.callee.item).receiver,
          if receivers (p.method e.callee.item) = 1 then (sources p e call).head? else none with
        | some this, some source =>
            [⟨source, varPointer e.callee.context this, .localAssign, none⟩]
        | _, _ => []) ++
      returnEdges call.result (p.method e.callee.item) e.site.context e.callee.context := by
  simp only [wiring, capturedEdges_append_actualEdges, receiverEdges, receiverSource?_eq_head?]
  rfl

/-! ## Edge by edge -/

/-- The flow along a lambda edge. -/
inductive Wires (p : Program) (e : CallEdge) (call : LambdaCall) : FlowEdge → Prop
  /-- The first value is the receiver of an instance method that is no constructor. -/
  | receiver {source this} (hreceivers : receivers (p.method e.callee.item) = 1)
      (hsource : (sources p e call)[0]? = some source)
      (hthis : (p.method e.callee.item).receiver = some this) :
      Wires p e call ⟨source, varPointer e.callee.context this, .localAssign, none⟩
  /-- The values behind the receivers go to the parameters. -/
  | param {i source param}
      (hsource : (sources p e call)[receivers (p.method e.callee.item) + i]? = some source)
      (hparam : (p.method e.callee.item).params[i]? = some param) :
      Wires p e call ⟨source, varPointer e.callee.context param, .parameterPassing, none⟩
  /-- What is returned goes to the result of the call. -/
  | result {v r} (hr : call.result = some r) (hv : v ∈ (p.method e.callee.item).returnVars) :
      Wires p e call ⟨varPointer e.callee.context v, varPointer e.site.context r, .ret, none⟩

/-- The wiring of a lambda edge consists of these edges. -/
theorem mem_wiring : f ∈ wiring p e call ↔ Wires p e call f := by
  rw [wiring_eq_zipWith, List.mem_append, List.mem_append]
  constructor
  · rintro ((hf | hf) | hf)
    · obtain ⟨i, hi⟩ := List.mem_iff_getElem?.1 hf
      obtain ⟨source, param, hsource, hparam, rfl⟩ := List.getElem?_zipWith_eq_some.1 hi
      rw [List.getElem?_drop] at hsource
      exact .param hsource hparam
    · split at hf
      · rename_i this source hthis hsource
        obtain rfl := List.mem_singleton.1 hf
        split at hsource
        · rename_i hreceivers
          rw [List.head?_eq_getElem?] at hsource
          exact .receiver hreceivers hsource hthis
        · cases hsource
      · exact absurd hf List.not_mem_nil
    · obtain ⟨r, v, hr, hv, rfl⟩ := mem_returnEdges.1 hf
      exact .result hr hv
  · intro hf
    cases hf with
    | receiver hreceivers hsource hthis =>
        rw [← List.head?_eq_getElem?] at hsource
        rw [hthis, if_pos hreceivers, hsource]
        exact .inl (.inr List.mem_cons_self)
    | @param i source param hsource hparam =>
        rw [← List.getElem?_drop] at hsource
        exact .inl (.inl (List.mem_of_getElem?
          (List.getElem?_zipWith_eq_some.2 ⟨source, param, hsource, hparam, rfl⟩)))
    | result hr hv =>
        exact .inr (mem_returnEdges.2 ⟨_, _, hr, hv, rfl⟩)

end PointsTo.Lambda
