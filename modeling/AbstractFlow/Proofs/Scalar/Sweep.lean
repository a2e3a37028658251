import AbstractFlow.Analysis.Branch
import AbstractFlow.Proofs.Collection.Dict
import AbstractFlow.Proofs.Flow.Graph
import Mathlib.Logic.Function.Iterate

/-! # Sweeps over scalar bodies

A body is scalar if it only moves literals, variables and unknown values about, tests them and
jumps. Of all that a run keeps, the analysis of such a body touches one frame, one queue, the visit
counts and the snapshots of merge points. A sweep holds just these, and beside them the frame with
which every statement last handed control on, which a run does not remember.
-/
namespace AbstractFlow

/-- Statements that neither build containers nor touch attributes, functions or classes. -/
def Stmt.isScalar : Stmt → Bool
  | .assign .. | .const .. | .expr .. | .jump .. | .goto _ | .label _ => true
  | _ => false

structure Sweep where
  frame : Snapshot
  queue : List Nat
  visits : Nat → Nat
  /-- What is kept for merge points. -/
  saved : Nat → Option Snapshot
  /-- The frame with which a statement last handed control on. -/
  left : Nat → Option Snapshot

namespace Sweep

variable (g : Graph)

def lookup (m : Sweep) (name : String) : Value :=
  if name = "" then Value.unknown else (Dict.get? m.frame name).getD Value.unknown

def operand (m : Sweep) : Operand → Value
  | .variable name => m.lookup name
  | .literal l => l.value

def evaluate (m : Sweep) : Test → Verdict
  | .name n => (m.lookup n).truth
  | .literal l => l.value.truth
  | .compare left op right => Value.compare op (m.operand left) (m.operand right)

def enqueue (m : Sweep) (j : Nat) : Sweep :=
  if j < g.length ∧ j ∉ m.queue then { m with queue := m.queue ++ [j] } else m

/-- Before anything was interpreted, the first statement waits. -/
def start : Sweep := enqueue g ⟨[], [], fun _ => 0, fun _ => none, fun _ => none⟩ 0

/-- Remembers the frame with which a statement hands control on. -/
def leave (m : Sweep) (i : Nat) : Sweep := { m with left := Function.update m.left i (some m.frame) }

def proceed (m : Sweep) (i : Nat) (js : List Nat) : Sweep := js.foldl (enqueue g) (m.leave i)

section Enqueue

variable (m : Sweep) (i : Nat)

@[simp] theorem enqueue_frame : (m.enqueue g i).frame = m.frame := by
  unfold enqueue; split <;> rfl

@[simp] theorem enqueue_visits : (m.enqueue g i).visits = m.visits := by
  unfold enqueue; split <;> rfl

@[simp] theorem enqueue_saved : (m.enqueue g i).saved = m.saved := by
  unfold enqueue; split <;> rfl

@[simp] theorem enqueue_left : (m.enqueue g i).left = m.left := by
  unfold enqueue; split <;> rfl

theorem mem_enqueue {j : Nat} :
    j ∈ (m.enqueue g i).queue ↔ j ∈ m.queue ∨ (j = i ∧ i < g.length) := by
  unfold enqueue
  split
  · rename_i h
    simp [h.1]
  · rename_i h
    refine ⟨Or.inl, ?_⟩
    rintro (hj | ⟨rfl, hlt⟩)
    · exact hj
    · by_contra hj
      exact h ⟨hlt, hj⟩

variable (js : List Nat)

@[simp] theorem foldl_enqueue_frame : (js.foldl (enqueue g) m).frame = m.frame := by
  induction js generalizing m with
  | nil => rfl
  | cons j rest ih => simp [ih]

@[simp] theorem foldl_enqueue_visits : (js.foldl (enqueue g) m).visits = m.visits := by
  induction js generalizing m with
  | nil => rfl
  | cons j rest ih => simp [ih]

@[simp] theorem foldl_enqueue_saved : (js.foldl (enqueue g) m).saved = m.saved := by
  induction js generalizing m with
  | nil => rfl
  | cons j rest ih => simp [ih]

@[simp] theorem foldl_enqueue_left : (js.foldl (enqueue g) m).left = m.left := by
  induction js generalizing m with
  | nil => rfl
  | cons j rest ih => simp [ih]

theorem mem_foldl_enqueue {j : Nat} :
    j ∈ (js.foldl (enqueue g) m).queue ↔ j ∈ m.queue ∨ (j ∈ js ∧ j < g.length) := by
  induction js generalizing m with
  | nil => simp
  | cons k rest ih =>
    rw [List.foldl_cons, ih, mem_enqueue, List.mem_cons]
    constructor
    · rintro ((h | ⟨rfl, h⟩) | ⟨h, hlt⟩)
      · exact Or.inl h
      · exact Or.inr ⟨Or.inl rfl, h⟩
      · exact Or.inr ⟨Or.inr h, hlt⟩
    · rintro (h | ⟨rfl | h, hlt⟩)
      · exact Or.inl (Or.inl h)
      · exact Or.inl (Or.inr ⟨rfl, hlt⟩)
      · exact Or.inr ⟨h, hlt⟩

@[simp] theorem proceed_frame : (m.proceed g i js).frame = m.frame := foldl_enqueue_frame g _ _

@[simp] theorem proceed_visits : (m.proceed g i js).visits = m.visits := foldl_enqueue_visits g _ _

@[simp] theorem proceed_saved : (m.proceed g i js).saved = m.saved := foldl_enqueue_saved g _ _

@[simp] theorem proceed_left :
    (m.proceed g i js).left = Function.update m.left i (some m.frame) := foldl_enqueue_left g _ _

theorem mem_proceed {j : Nat} :
    j ∈ (m.proceed g i js).queue ↔ j ∈ m.queue ∨ (j ∈ js ∧ j < g.length) := mem_foldl_enqueue g _ _

end Enqueue

/-- The frame after a value was joined into a variable. -/
def bound (frame : Snapshot) (target : String) (v : Value) : Snapshot :=
  if target = "" then frame
  else frame.insert target (((Dict.get? frame target).getD []).merge v)

/-- The frame after all bindings of a snapshot were written into it. -/
def restored (frame snap : Snapshot) : Snapshot := snap.foldl (fun frame e => frame.insert e.1 e.2) frame

theorem sorted_restored {frame snap : Snapshot} (hframe : Dict.Sorted frame) : Dict.Sorted (restored frame snap) := by
  unfold restored
  induction snap generalizing frame with
  | nil => exact hframe
  | cons e rest ih => exact ih (Dict.sorted_insert e.1 e.2 hframe)

theorem get?_restored {frame snap : Snapshot} (hframe : Dict.Sorted frame) (hsnap : Dict.Sorted snap) (x : String) :
    Dict.get? (restored frame snap) x = (Dict.get? snap x).or (Dict.get? frame x) := by
  unfold restored
  induction snap generalizing frame with
  | nil => rfl
  | cons b rest ih =>
    obtain ⟨hlt, hrest⟩ := List.pairwise_cons.mp hsnap
    rw [List.foldl_cons, ih (Dict.sorted_insert b.1 b.2 hframe) hrest, Dict.get?_insert b.1 x b.2]
    by_cases hx : x = b.1
    · have hnone : Dict.get? rest x = none := Dict.get?_eq_none_of_lt fun e he => hx ▸ hlt e he
      rw [hnone, Option.none_or, if_pos hx, Dict.get?, if_pos hx.symm]
      rfl
    · simp [Dict.get?, hx, Ne.symm hx]

def save (frame : Snapshot) (saved : Nat → Option Snapshot) (j : Nat) : Nat → Option Snapshot :=
  Function.update saved j (some (((saved j).map (Snapshot.merge · frame)).getD frame))

/-- The merge points ahead of a branch, through statements not interpreted yet. -/
def ahead (m : Sweep) (i : Nat) : List Nat := g.mergePointsAhead (fun n => 0 < m.visits n) i

/-- What arrives at a merge point together with what is kept for it. -/
def arriving (m : Sweep) (i : Nat) : Snapshot := ((m.saved i).map (Snapshot.merge · m.frame)).getD m.frame

/-- Whether a merge point reached before finds nothing new. -/
def isStable (m : Sweep) (i revisits : Nat) : Bool :=
  0 < revisits && (m.saved i).any (Snapshot.equal (m.arriving i))

def decided? (m : Sweep) (i : Nat) (sense : Bool) (test : Test) (label : String) : Option Nat :=
  match g.label? label, m.evaluate test with
  | none, _ | _, .maybe => none
  | some t, verdict => some (if (verdict == .yes) == sense then t else i + 1)

def frameAfter (m : Sweep) (i : Nat) : Stmt → Snapshot
  | .const t l => bound m.frame t l.value
  | .assign t x => bound m.frame t (m.lookup x)
  | .expr t _ => bound m.frame t Value.unknown
  | .label _ => if g.isMergePoint i then restored m.frame (m.arriving i) else m.frame
  | _ => m.frame

/-- What a statement leaves for merge points. A branch that is not decided merges the frame into what
is kept for all merge points ahead. -/
def savedAfter (m : Sweep) (i : Nat) : Stmt → Nat → Option Snapshot
  | .jump sense test l =>
    if (m.decided? g i sense test l).isSome then m.saved else (m.ahead g i).foldl (save m.frame) m.saved
  | .label _ => if g.isMergePoint i then Function.update m.saved i (some (m.arriving i)) else m.saved
  | _ => m.saved

/-- The statements that a statement hands control on to, unless it is a merge point that finds
nothing new. -/
def next? (m : Sweep) (i revisits : Nat) : Stmt → Option (List Nat)
  | .jump sense test l => some (((m.decided? g i sense test l).map fun t => [t]).getD (g.succsAt i))
  | .goto l => some (g.label? l).toList
  | .label _ => if g.isMergePoint i && m.isStable i revisits then none else some (g.succsAt i)
  | _ => some (g.succsAt i)

def apply (m : Sweep) (i revisits : Nat) (stmt : Stmt) : Sweep :=
  let after := { m with frame := m.frameAfter g i stmt, saved := m.savedAfter g i stmt }
  match m.next? g i revisits stmt with
  | some js => after.proceed g i js
  | none => after

def visit (m : Sweep) (i : Nat) (rest : List Nat) : Sweep :=
  { m with queue := rest, visits := Function.update m.visits i (m.visits i + 1) }

/-- Interprets the oldest statement that waits, if there is one. -/
def step (body : List Stmt) (m : Sweep) : Sweep :=
  match m.queue with
  | [] => m
  | i :: rest =>
    match body[i]? with
    | some stmt => (m.visit i rest).apply g i (m.visits i) stmt
    | none => m

theorem step_of_idle {body : List Stmt} {m : Sweep} (h : m.queue = []) : m.step g body = m := by
  simp [step, h]

theorem iterate_step_of_idle {body : List Stmt} {m : Sweep} (h : m.queue = []) (n : Nat) :
    (step g body)^[n] m = m := Function.iterate_fixed (step_of_idle g h) n

end Sweep

def Scope.graph (s : Scope) : Graph := .build s.name s.body

/-- The sweep over a scope after `n` statements, or fewer if none waits any more. -/
def Scope.sweep (s : Scope) (n : Nat) : Sweep := (Sweep.step s.graph s.body)^[n] (Sweep.start s.graph)

end AbstractFlow
