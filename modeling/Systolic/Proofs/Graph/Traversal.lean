import Mathlib.Logic.Relation
import Systolic.Graph.Network

/-
  This file proves that the loop that searches a network gives
  the answer of a recursive depth-first search. The marks of the
  loop tell the open nodes from the finished ones, and its stack
  is the path of the recursive search, with what every call on
  the path has still to do. One turn of the loop changes nothing
  about the answer of the search that is taken up from the stack.

  Key definitions include:
    * `Network.DepthFirst`
    * `Walk.Marked`
    * `Network.Resumes`

  Key theorems include:
    * `Network.Turn.marked`
    * `Network.Turn.resumes`
    * `Network.run_turns`
    * `Network.search_depthFirst`
    * `Network.depthFirst_of_order`
-/

namespace Systolic

------------------------------------------------------------
-- Recursive Search
------------------------------------------------------------

namespace Network

variable {ν : Type} {net : Network ν}

/-
  The recursive depth-first search of a network. From the
  finished nodes it goes through a list of nodes: what a node
  needs is searched first, with the node on the path, and then
  the node is finished. A node of the path that comes up again
  ends the search.
-/
inductive DepthFirst
    (net : Network ν) :
    List ν → List ν → List ν → Except GraphError (List ν) → Prop
| done {path finished : List ν} :
    DepthFirst net path finished [] (.ok finished)
| known {path finished ns : List ν} {n : ν}
    {result : Except GraphError (List ν)}
    (hKnown : n ∈ finished)
    (hRest : DepthFirst net path finished ns result) :
    DepthFirst net path finished (n :: ns) result
| cycle {path finished ns : List ν} {n : ν}
    (hNew : n ∉ finished)
    (hPath : n ∈ path) :
    DepthFirst net path finished (n :: ns) (.error (.cycle (net.name n)))
| fail {path finished ns : List ν} {n : ν} {e : GraphError}
    (hNew : n ∉ finished)
    (hPath : n ∉ path)
    (hOperands :
      DepthFirst net (n :: path) finished (net.operands n) (.error e)) :
    DepthFirst net path finished (n :: ns) (.error e)
| finish {path finished finished' ns : List ν} {n : ν}
    {result : Except GraphError (List ν)}
    (hNew : n ∉ finished)
    (hPath : n ∉ path)
    (hOperands :
      DepthFirst net (n :: path) finished (net.operands n) (.ok finished'))
    (hRest : DepthFirst net path (finished' ++ [n]) ns result) :
    DepthFirst net path finished (n :: ns) result

/- The search has one answer. -/
theorem DepthFirst.unique
    {path finished ns : List ν}
    {result result' : Except GraphError (List ν)}
    (hSearch : net.DepthFirst path finished ns result)
    (hOther : net.DepthFirst path finished ns result') :
    result' = result := by
  induction hSearch generalizing result' with
  | done =>
      cases hOther
      rfl
  | known hKnown hRest ih =>
      cases hOther with
      | known _ hRest' => exact ih hRest'
      | cycle hNew _ => exact absurd hKnown hNew
      | fail hNew _ _ => exact absurd hKnown hNew
      | finish hNew _ _ _ => exact absurd hKnown hNew
  | cycle hNew hPath =>
      cases hOther with
      | known hKnown _ => exact absurd hKnown hNew
      | cycle _ _ => rfl
      | fail _ hOff _ => exact absurd hPath hOff
      | finish _ hOff _ _ => exact absurd hPath hOff
  | fail hNew hPath hOperands ih =>
      cases hOther with
      | known hKnown _ => exact absurd hKnown hNew
      | cycle _ hOn => exact absurd hOn hPath
      | fail _ _ hOperands' =>
          cases ih hOperands'
          rfl
      | finish _ _ hOperands' _ => cases ih hOperands'
  | finish hNew hPath hOperands hRest ihOperands ihRest =>
      cases hOther with
      | known hKnown _ => exact absurd hKnown hNew
      | cycle _ hOn => exact absurd hOn hPath
      | fail _ _ hOperands' => cases ihOperands hOperands'
      | finish _ _ hOperands' hRest' =>
          cases ihOperands hOperands'
          exact ihRest hRest'

end Network

------------------------------------------------------------
-- Marks
------------------------------------------------------------

namespace Walk

variable {ν : Type}

/- The open nodes of a search, the last one first. -/
def path (w : Walk ν) : List ν :=
  w.stack.map (·.node)

variable [DecidableEq ν] {w : Walk ν} {n : ν}

/-
  The marks of a search: the nodes on the path are open, each of
  them once, and the finished nodes are those of the order.
-/
structure Marked (w : Walk ν) : Prop where
  active : ∀ n, w.mark? n = some .active ↔ n ∈ w.path
  done : ∀ n, w.mark? n = some .done ↔ n ∈ w.order
  nodup : w.path.Nodup

theorem marked_start : Marked (start : Walk ν) := by
  constructor <;> simp [start, mark?, path]

namespace Marked

theorem not_mem_path
    (hMarked : w.Marked)
    (hNew : w.mark? n = none) :
    n ∉ w.path := by
  rw [← hMarked.active, hNew]
  simp

theorem not_mem_order
    (hMarked : w.Marked)
    (hNew : w.mark? n = none) :
    n ∉ w.order := by
  rw [← hMarked.done, hNew]
  simp

/- Going past an operand changes no mark. -/
theorem advance
    {f : Frame ν}
    {frames : List (Frame ν)}
    (hMarked : w.Marked)
    (hStack : w.stack = f :: frames) :
    (w.advance f frames).Marked := by
  have hPath : (w.advance f frames).path = w.path := by
    simp [path, Walk.advance, hStack]
  refine ⟨?_, hMarked.done, ?_⟩
  · rw [hPath]
    exact hMarked.active
  · rw [hPath]
    exact hMarked.nodup

/- A node that is opened for the first time is on the path. -/
theorem enter
    (net : Network ν)
    (hMarked : w.Marked)
    (hNew : w.mark? n = none) :
    (net.enter w n).Marked := by
  have hMarks : (net.enter w n).marks = (n, .active) :: w.marks := rfl
  have hMark := mark?_cons hMarks
  have hPath : (net.enter w n).path = n :: w.path := rfl
  constructor
  case active =>
    intro k
    rw [hMark, hPath, List.mem_cons]
    by_cases hSame : k = n
    · simp [hSame]
    · rw [if_neg hSame]
      simpa [hSame] using hMarked.active k
  case done =>
    intro k
    rw [hMark]
    by_cases hSame : k = n
    · have hFresh : n ∉ (net.enter w n).order := hMarked.not_mem_order hNew
      simpa [hSame] using hFresh
    · rw [if_neg hSame]
      exact hMarked.done k
  case nodup =>
    rw [hPath]
    exact List.nodup_cons.mpr ⟨hMarked.not_mem_path hNew, hMarked.nodup⟩

/- The last node of the path is finished next. -/
theorem finish
    {f : Frame ν}
    {frames : List (Frame ν)}
    (hMarked : w.Marked)
    (hStack : w.stack = f :: frames) :
    (w.finish f.node frames).Marked := by
  have hMarks :
      (w.finish f.node frames).marks = (f.node, .done) :: w.marks := rfl
  have hMark := mark?_cons hMarks
  have hPath : w.path = f.node :: (w.finish f.node frames).path := by
    rw [path, hStack]
    rfl
  have hNodup := hMarked.nodup
  rw [hPath] at hNodup
  rcases List.nodup_cons.mp hNodup with ⟨hClosed, hRest⟩
  refine ⟨?_, ?_, hRest⟩
  · intro k
    rw [hMark]
    by_cases hSame : k = f.node
    · simpa [hSame] using hClosed
    · have hActive := hMarked.active k
      rw [hPath, List.mem_cons, or_iff_right hSame] at hActive
      rw [if_neg hSame]
      exact hActive
  · intro k
    have hOrder : (w.finish f.node frames).order = w.order ++ [f.node] := rfl
    rw [hMark, hOrder, List.mem_append, List.mem_singleton]
    by_cases hSame : k = f.node
    · simp [hSame]
    · rw [if_neg hSame, or_iff_left hSame]
      exact hMarked.done k

end Marked

end Walk

------------------------------------------------------------
-- Turns
------------------------------------------------------------

/- What is left of the operands is the next one and all after it. -/
theorem Frame.drop_next
    {ν : Type}
    {f : Frame ν}
    {child : ν}
    (hChild : f.inputs[f.next]? = some child) :
    f.inputs.drop f.next = child :: f.inputs.drop (f.next + 1) := by
  rcases List.getElem?_eq_some_iff.mp hChild with ⟨hNext, rfl⟩
  exact List.drop_eq_getElem_cons hNext

namespace Network

variable {ν : Type} {net : Network ν}

/-
  The recursive search, taken up from a stack of open nodes: the
  operands of the last node that are left are searched, with the
  open nodes as the path, then the node is finished, and the
  search goes on with the node below.
-/
inductive Resumes
    (net : Network ν) :
    List (Frame ν) → List ν → Except GraphError (List ν) → Prop
| done {finished : List ν} :
    Resumes net [] finished (.ok finished)
| fail {f : Frame ν} {frames : List (Frame ν)} {finished : List ν}
    {e : GraphError}
    (hOperands :
      net.DepthFirst ((f :: frames).map (·.node)) finished
        (f.inputs.drop f.next) (.error e)) :
    Resumes net (f :: frames) finished (.error e)
| close {f : Frame ν} {frames : List (Frame ν)} {finished finished' : List ν}
    {result : Except GraphError (List ν)}
    (hOperands :
      net.DepthFirst ((f :: frames).map (·.node)) finished
        (f.inputs.drop f.next) (.ok finished'))
    (hRest : Resumes net frames (finished' ++ [f.node]) result) :
    Resumes net (f :: frames) finished result

/- All operands of the open nodes are nodes of the network. -/
def Inside
    (net : Network ν)
    (w : Walk ν) : Prop :=
  ∀ f ∈ w.stack, ∀ n ∈ f.inputs, n ∈ net.nodes

theorem Inside.enter
    {w : Walk ν}
    {n : ν}
    (hNet : net.WellFormed)
    (hInside : net.Inside w)
    (hNode : n ∈ net.nodes) :
    net.Inside (net.enter w n) :=
  List.forall_mem_cons.mpr ⟨hNet.operands_mem n hNode, hInside⟩

variable [DecidableEq ν] {w w' : Walk ν}

theorem Turn.marked
    (hMarked : w.Marked)
    (hTurn : net.Turn w w') :
    w'.Marked := by
  cases hTurn with
  | finish hStack _ => exact hMarked.finish hStack
  | skip hStack _ _ => exact hMarked.advance hStack
  | enter hStack _ hNew _ => exact (hMarked.advance hStack).enter net hNew

/- A turn does not change the answer of the recursive search. -/
theorem Turn.resumes
    {result : Except GraphError (List ν)}
    (hMarked : w.Marked)
    (hTurn : net.Turn w w')
    (hResumes : net.Resumes w'.stack w'.order result) :
    net.Resumes w.stack w.order result := by
  cases hTurn with
  | finish hStack hLast =>
      rw [hStack]
      refine .close ?_ hResumes
      rw [List.drop_eq_nil_of_le (List.getElem?_eq_none_iff.mp hLast)]
      exact .done
  | skip hStack hChild hDone =>
      have hKnown := (hMarked.done _).mp hDone
      rw [hStack]
      cases hResumes with
      | fail hOperands =>
          refine .fail ?_
          rw [Frame.drop_next hChild]
          exact .known hKnown hOperands
      | close hOperands hRest =>
          refine .close ?_ hRest
          rw [Frame.drop_next hChild]
          exact .known hKnown hOperands
  | enter hStack hChild hNew _ =>
      have hOff := hMarked.not_mem_path hNew
      have hFresh := hMarked.not_mem_order hNew
      rw [Walk.path, hStack] at hOff
      rw [hStack]
      cases hResumes with
      | fail hInner =>
          refine .fail ?_
          rw [Frame.drop_next hChild]
          exact .fail hFresh hOff hInner
      | close hInner hOuter =>
          cases hOuter with
          | fail hOperands =>
              refine .fail ?_
              rw [Frame.drop_next hChild]
              exact .finish hFresh hOff hInner hOperands
          | close hOperands hRest =>
              refine .close ?_ hRest
              rw [Frame.drop_next hChild]
              exact .finish hFresh hOff hInner hOperands

theorem Turn.inside
    (hNet : net.WellFormed)
    (hInside : net.Inside w)
    (hTurn : net.Turn w w') :
    net.Inside w' := by
  cases hTurn with
  | finish hStack _ =>
      unfold Inside at hInside
      rw [hStack] at hInside
      exact (List.forall_mem_cons.mp hInside).2
  | skip hStack _ _ =>
      unfold Inside at hInside
      rw [hStack] at hInside
      exact List.forall_mem_cons.mpr (List.forall_mem_cons.mp hInside)
  | enter hStack _ _ hNode =>
      unfold Inside at hInside
      rw [hStack] at hInside
      exact Inside.enter hNet
        (List.forall_mem_cons.mpr (List.forall_mem_cons.mp hInside)) hNode

/- The loop fails where the recursive search does, at an open node. -/
theorem resumes_of_step_error
    {e : GraphError}
    (hMarked : w.Marked)
    (hInside : net.Inside w)
    (hStep : net.step w = some (.error e)) :
    net.Resumes w.stack w.order (.error e) := by
  unfold step at hStep
  split at hStep
  case h_1 => cases hStep
  case h_2 f frames hStack =>
    split at hStep
    case h_1 => cases hStep
    case h_2 child hChild =>
      split at hStep
      case h_1 => cases hStep
      case h_2 hActive =>
        cases hStep
        have hOpen := (hMarked.active child).mp hActive
        have hUnfinished : child ∉ w.order := by
          rw [← hMarked.done, hActive]
          simp
        rw [Walk.path, hStack] at hOpen
        rw [hStack]
        refine .fail ?_
        rw [Frame.drop_next hChild]
        exact .cycle hUnfinished hOpen
      case h_3 =>
        split at hStep
        case isTrue => cases hStep
        case isFalse hOutside =>
          have hMem : f ∈ w.stack := by simp [hStack]
          exact absurd
            (hInside f hMem child (List.mem_of_getElem? hChild)) hOutside

------------------------------------------------------------
-- Runs
------------------------------------------------------------

/- One turn after another. -/
def Turns (net : Network ν) : Walk ν → Walk ν → Prop :=
  Relation.ReflTransGen net.Turn

namespace Turns

theorem marked
    (hMarked : w.Marked)
    (hTurns : net.Turns w w') :
    w'.Marked := by
  induction hTurns with
  | refl => exact hMarked
  | tail _ hTurn ih => exact hTurn.marked ih

theorem inside
    (hNet : net.WellFormed)
    (hInside : net.Inside w)
    (hTurns : net.Turns w w') :
    net.Inside w' := by
  induction hTurns with
  | refl => exact hInside
  | tail _ hTurn ih => exact hTurn.inside hNet ih

theorem resumes
    {result : Except GraphError (List ν)}
    (hMarked : w.Marked)
    (hTurns : net.Turns w w')
    (hResumes : net.Resumes w'.stack w'.order result) :
    net.Resumes w.stack w.order result := by
  induction hTurns with
  | refl => exact hResumes
  | tail hTurns hTurn ih =>
      exact ih (hTurn.resumes (Turns.marked hMarked hTurns) hResumes)

end Turns

/- The loop takes turns until no node is open, or until one fails. -/
theorem run_turns
    (net : Network ν)
    (w : Walk ν) :
    match net.run w with
    | .ok w' => net.Turns w w' ∧ w'.stack = []
    | .error e => ∃ w', net.Turns w w' ∧ net.step w' = some (.error e) := by
  fun_induction run net w with
  | case1 w hStep =>
      refine ⟨.refl, ?_⟩
      unfold step at hStep
      split at hStep
      case h_1 hStack => exact hStack
      case h_2 => grind
  | case2 w e hStep => exact ⟨w, .refl, hStep⟩
  | case3 w next hStep _ ih =>
      have hTurn := turn_of_step hStep
      split
      case h_1 w' hRun =>
        rw [hRun] at ih
        exact ⟨.head hTurn ih.1, ih.2⟩
      case h_2 e hRun =>
        rw [hRun] at ih
        rcases ih with ⟨last, hTurns, hError⟩
        exact ⟨last, .head hTurn hTurns, hError⟩

/- A search from a new node is the recursive search of its operands. -/
theorem run_enter
    (net : Network ν)
    {n : ν}
    (hMarked : w.Marked)
    (hStack : w.stack = [])
    (hNew : w.mark? n = none) :
    match net.run (net.enter w n) with
    | .ok w' =>
        w'.Marked ∧ w'.stack = [] ∧
          ∃ finished,
            net.DepthFirst [n] w.order (net.operands n) (.ok finished) ∧
              w'.order = finished ++ [n]
    | .error e =>
        net.WellFormed → n ∈ net.nodes →
          net.DepthFirst [n] w.order (net.operands n) (.error e) := by
  have hEntered := hMarked.enter net hNew
  have hFrames :
      (net.enter w n).stack =
        [{ node := n, inputs := net.operands n, next := 0 }] := by
    simp [enter, hStack]
  have hRun := run_turns net (net.enter w n)
  split
  case h_1 w' hOk =>
    rw [hOk] at hRun
    rcases hRun with ⟨hTurns, hEmpty⟩
    refine ⟨hTurns.marked hEntered, hEmpty, ?_⟩
    have hDone : net.Resumes w'.stack w'.order (.ok w'.order) := by
      rw [hEmpty]
      exact .done
    have hResumes := hTurns.resumes hEntered hDone
    rw [hFrames] at hResumes
    generalize hLast : w'.order = last at hResumes
    cases hResumes with
    | close hOperands hRest =>
        cases hRest
        exact ⟨_, hOperands, rfl⟩
  case h_2 e hError =>
    intro hNet hNode
    rw [hError] at hRun
    rcases hRun with ⟨last, hTurns, hStep⟩
    have hInside : net.Inside w := by
      unfold Inside
      rw [hStack]
      simp
    have hFails :=
      resumes_of_step_error (hTurns.marked hEntered)
        (hTurns.inside hNet (hInside.enter hNet hNode)) hStep
    have hResumes := hTurns.resumes hEntered hFails
    rw [hFrames] at hResumes
    cases hResumes with
    | fail hOperands => exact hOperands
    | close _ hRest => cases hRest

/- The loop over the outputs is the recursive search from them. -/
theorem search_depthFirst
    (net : Network ν)
    (ns : List ν)
    (hMarked : w.Marked)
    (hStack : w.stack = []) :
    match net.search ns w with
    | .ok w' => net.DepthFirst [] w.order ns (.ok w'.order)
    | .error e =>
        net.WellFormed → (∀ n ∈ ns, n ∈ net.nodes) →
          net.DepthFirst [] w.order ns (.error e) := by
  induction ns generalizing w with
  | nil => exact .done
  | cons n ns ih =>
      rw [search]
      cases hMark : w.mark? n with
      | some mark =>
          -- No node is open, so a node that was met is finished.
          have hKnown : n ∈ w.order := by
            cases mark with
            | done => exact (hMarked.done n).mp hMark
            | active =>
                have hOpen := (hMarked.active n).mp hMark
                rw [Walk.path, hStack] at hOpen
                cases hOpen
          have hRest := ih hMarked hStack
          rw [Option.isSome_some, if_pos rfl]
          split
          case h_1 w' hOk =>
            rw [hOk] at hRest
            exact .known hKnown hRest
          case h_2 e hError =>
            intro hNet hNodes
            rw [hError] at hRest
            exact .known hKnown
              (hRest hNet (List.forall_mem_cons.mp hNodes).2)
      | none =>
          have hOff := hMarked.not_mem_path hMark
          have hFresh := hMarked.not_mem_order hMark
          rw [Walk.path, hStack] at hOff
          have hFirst := net.run_enter hMarked hStack hMark
          rw [Option.isSome_none, if_neg Bool.false_ne_true]
          cases hRun : net.run (net.enter w n) with
          | error e =>
              rw [hRun] at hFirst
              intro hNet hNodes
              exact .fail hFresh hOff
                (hFirst hNet (List.forall_mem_cons.mp hNodes).1)
          | ok w₁ =>
              rw [hRun] at hFirst
              rcases hFirst with
                ⟨hMarked₁, hStack₁, finished, hOperands, hOrder⟩
              have hRest := ih hMarked₁ hStack₁
              rw [hOrder] at hRest
              dsimp only
              split
              case h_1 w' hOk =>
                rw [hOk] at hRest
                exact .finish hFresh hOff hOperands hRest
              case h_2 e hError =>
                intro hNet hNodes
                rw [hError] at hRest
                exact .finish hFresh hOff hOperands
                  (hRest hNet (List.forall_mem_cons.mp hNodes).2)

------------------------------------------------------------
-- Computation Order
------------------------------------------------------------

variable {outputs : List String}

/- A computation order is what the search from the outputs answers. -/
theorem depthFirst_of_order
    {ns : List ν}
    (hOrder : net.order outputs = .ok ns) :
    ∃ roots,
      net.roots outputs = .ok roots ∧
        net.DepthFirst [] [] roots (.ok ns) := by
  unfold order at hOrder
  split at hOrder
  case h_1 => cases hOrder
  case h_2 roots hRoots =>
    have hSearch := net.search_depthFirst roots Walk.marked_start rfl
    split at hOrder
    case h_1 => cases hOrder
    case h_2 w hOk =>
      cases hOrder
      rw [hOk] at hSearch
      exact ⟨roots, hRoots, hSearch⟩

end Network

end Systolic
