import AbstractFlow.Proofs.Insensitive.Passes
import AbstractFlow.Proofs.Value.Cover
import AbstractFlow.Proofs.Value.Plain

/-! # What a complete analysis has found out

If a pass over statements that store into nothing joins their values to their targets, the frame leads
upwards from statement to statement. A pass that ends with the frame with which it began has therefore
changed nothing in between: every statement was interpreted in that very frame, and what it gave to its
target was there already.
-/
namespace AbstractFlow

/-- Local statements that store into no container. -/
def Stmt.isPure : Stmt → Bool
  | .subscriptStore .. => false
  | stmt => stmt.isLocal

theorem Stmt.isLocal_of_isPure {stmt : Stmt} (h : stmt.isPure = true) : stmt.isLocal = true := by
  cases stmt <;> first | rfl | cases h

namespace Snapshot

variable {frame frame' : Snapshot} {stmt : Stmt} {body : List Stmt}

/-- Joining frames of modest values leads upwards. -/
theorem absorbsOn_merge : AbsorbsOn Modest merge :=
  (AbsorbsOn.dict fun _ => Value.absorbsOn_merge).mono (fun h => ⟨h.sorted, h.values⟩) modest_merge

/-- To join a value to what a variable holds is to join a frame that binds this variable only. -/
theorem bind_eq_merge (h : Dict.Sorted frame) {target : String} (htarget : target ≠ "") (v : Value) :
    frame.bind false target v = frame.merge [(target, v)] := by
  have hmerge : frame.merge [(target, v)] = Dict.insertWith Value.merge target v frame := rfl
  rw [bind_eq_insert htarget, hmerge]
  refine Dict.ext_get? (Dict.sorted_insert _ _ h) (Dict.sorted_insertWith _ _ _ h) fun name => ?_
  rw [Dict.get?_insert, Dict.get?_insertWith _ _ _ _ h]
  cases hold : Dict.get? frame target with
  | none => simp [Dict.joined]
  | some w => rfl

theorem after_of_isPure (hpure : stmt.isPure = true) (overwrites : Bool) :
    frame.after overwrites stmt = frame.bind overwrites stmt.target (frame.value stmt) := by
  cases stmt <;> first | rfl | cases hpure

theorem Modest.after (h : frame.Modest) (hpure : stmt.isPure = true) (overwrites : Bool) :
    (frame.after overwrites stmt).Modest := by
  rw [after_of_isPure hpure]
  exact modest_bind h overwrites stmt.target (h.value stmt)

theorem Modest.afterAll (h : frame.Modest) (hpure : ∀ stmt ∈ body, stmt.isPure = true) (overwrites : Bool) :
    (frame.afterAll overwrites body).Modest := by
  induction body generalizing frame with
  | nil => exact h
  | cons stmt rest ih =>
    obtain ⟨hstmt, hrest⟩ := List.forall_mem_cons.mp hpure
    exact ih (h.after hstmt overwrites) hrest

theorem Modest.climbs_after (h : frame.Modest) (hpure : stmt.isPure = true) :
    Climbs Modest merge frame (frame.after false stmt) := by
  rw [after_of_isPure hpure]
  by_cases htarget : stmt.target = ""
  · rw [bind, if_pos htarget]
    exact .refl
  · rw [bind_eq_merge h.1 htarget]
    refine Climbs.refl.step ⟨List.pairwise_singleton _ _, List.forall_mem_singleton.mpr ?_⟩
    exact h.value stmt

theorem Modest.climbs_pass (h : frame.Modest) (hpure : ∀ stmt ∈ body, stmt.isPure = true) :
    Climbs Modest merge frame (frame.afterAll false body) := by
  induction body generalizing frame with
  | nil => exact .refl
  | cons stmt rest ih =>
    obtain ⟨hstmt, hrest⟩ := List.forall_mem_cons.mp hpure
    exact (h.climbs_after hstmt).trans (ih (h.after hstmt false) hrest)

/-- A pass that comes back to its frame has left it all along. -/
theorem Modest.after_eq_of_pass_eq (h : frame.Modest) (hpure : ∀ stmt ∈ body, stmt.isPure = true)
    (hpass : frame.afterAll false body = frame) :
    ∀ stmt ∈ body, frame.after false stmt = frame := by
  induction body with
  | nil => simp
  | cons first rest ih =>
    obtain ⟨hfirst, hrest⟩ := List.forall_mem_cons.mp hpure
    have hback := (h.after hfirst false).climbs_pass hrest
    rw [afterAll_cons] at hpass
    rw [hpass] at hback
    have hsame := (absorbsOn_merge.ascends.antisymm h (h.climbs_after hfirst) hback).symm
    rw [hsame] at hpass
    exact List.forall_mem_cons.mpr ⟨hsame, ih hrest hpass⟩

/-- What a statement gives to its target is there already if it changes nothing. -/
theorem covers_of_after_eq (hpure : stmt.isPure = true) (htarget : stmt.target ≠ "")
    (h : frame.after false stmt = frame) :
    ∃ v, Dict.get? frame stmt.target = some v ∧ v.Covers (frame.value stmt) := by
  rw [after_of_isPure hpure, bind_eq_insert htarget] at h
  have hget : some (((Dict.get? frame stmt.target).getD []).merge (frame.value stmt)) =
      Dict.get? frame stmt.target := by
    have hinsert := Dict.get?_insert stmt.target stmt.target
      (((Dict.get? frame stmt.target).getD []).merge (frame.value stmt)) frame
    rw [if_pos rfl] at hinsert
    rw [← hinsert]
    exact congrArg (Dict.get? · stmt.target) h
  cases hv : Dict.get? frame stmt.target with
  | none =>
    rw [hv] at hget
    cases hget
  | some v =>
    rw [hv, Option.getD_some] at hget
    exact ⟨v, rfl, Value.covers_of_merge_eq (Option.some.inj hget)⟩

theorem isSome_get?_bind {overwrites : Bool} {target name : String} {v : Value}
    (h : (Dict.get? frame name).isSome = true ∨ (target = name ∧ name ≠ "")) :
    (Dict.get? (frame.bind overwrites target v) name).isSome = true := by
  unfold bind
  split
  · rename_i hempty
    exact h.resolve_right fun hname => hname.2 (hname.1 ▸ hempty)
  · rw [Dict.get?_insert]
    split
    · rfl
    · rename_i hne
      exact h.resolve_right fun hname => hne hname.1.symm

theorem isSome_get?_pass (hpure : ∀ stmt ∈ body, stmt.isPure = true) {overwrites : Bool} {name : String}
    (h : (Dict.get? frame name).isSome = true ∨ ((∃ stmt ∈ body, stmt.target = name) ∧ name ≠ "")) :
    (Dict.get? (frame.afterAll overwrites body) name).isSome = true := by
  induction body generalizing frame with
  | nil => exact h.resolve_right fun hname => by simp at hname
  | cons first rest ih =>
    obtain ⟨hfirst, hrest⟩ := List.forall_mem_cons.mp hpure
    rw [afterAll_cons, after_of_isPure hfirst]
    refine ih hrest ?_
    rcases h with hbound | ⟨⟨stmt, hstmt, htarget⟩, hname⟩
    · exact Or.inl (isSome_get?_bind (Or.inl hbound))
    · rcases List.mem_cons.mp hstmt with rfl | hstmt
      · exact Or.inl (isSome_get?_bind (Or.inr ⟨htarget, hname⟩))
      · exact Or.inr ⟨⟨stmt, hstmt, htarget⟩, hname⟩

theorem eq_of_equal (hs : Dict.Sorted frame) (hs' : Dict.Sorted frame') (h : frame.equal frame' = true)
    (hvalues : ∀ name v w, Dict.get? frame name = some v → Dict.get? frame' name = some w →
      v.equal w = true → v = w) : frame = frame' := by
  simp only [Snapshot.equal, Bool.and_eq_true, beq_iff_eq, List.all_eq_true] at h
  obtain ⟨hkeys, hall⟩ := h
  have hlength : frame.length = frame'.length := by
    simpa [Dict.keys] using congrArg List.length hkeys
  refine List.ext_getElem hlength fun i hi hi' => ?_
  have hname : frame[i].1 = frame'[i].1 := by
    have hat := congrArg (·[i]?) hkeys
    simpa [Dict.keys, hi, hi'] using hat
  have hmem : (frame[i], frame'[i]) ∈ frame.zip frame' := by
    refine List.mem_iff_getElem.mpr ⟨i, by simpa using ⟨hi, hi'⟩, by simp⟩
  refine Prod.ext hname (hvalues frame[i].1 _ _ ?_ ?_ (hall _ hmem))
  · exact Dict.get?_of_mem hs (List.getElem_mem hi)
  · rw [hname]
    exact Dict.get?_of_mem hs' (List.getElem_mem hi')

end Snapshot

namespace Scope

variable {σ : Type} {s : Scope} {o : Options}

/-- As far as variables hold them before and after a pass, values that say the same are the same. -/
def TellsApart (s : Scope) : Prop :=
  ∀ n name v w, Dict.get? (s.frames (n + 1)) name = some v → Dict.get? (s.frames n) name = some w →
    v.equal w = true → v = w

theorem modest_frames (hpure : ∀ stmt ∈ s.body, stmt.isPure = true) (n : Nat) : (s.frames n).Modest := by
  induction n with
  | zero => exact ⟨Dict.sorted_nil, Dict.each_nil⟩
  | succ n ih => exact ih.afterAll hpure _

/-- When passes have settled, every target covers what its statements give to it. -/
theorem covers_of_settles (hpure : ∀ stmt ∈ s.body, stmt.isPure = true) (hequal : s.TellsApart) {n : Nat}
    (h : s.Settles n) :
    ∀ stmt ∈ s.body, stmt.target ≠ "" →
      ∃ v, Dict.get? (s.frames (n + 1)) stmt.target = some v ∧ v.Covers ((s.frames (n + 1)).value stmt) := by
  intro stmt hstmt htarget
  have hsame : s.frames (n + 1) = s.frames n :=
    Snapshot.eq_of_equal (modest_frames hpure (n + 1)).1 (modest_frames hpure n).1 h (hequal n)
  cases n with
  | zero =>
    -- The first pass binds the target, so it does not leave the empty frame.
    have hbound : (Dict.get? (s.frames 1) stmt.target).isSome = true :=
      Snapshot.isSome_get?_pass hpure (Or.inr ⟨⟨stmt, hstmt, rfl⟩, htarget⟩)
    rw [hsame] at hbound
    cases hbound
  | succ n =>
    rw [hsame]
    have hpass : s.pass false (s.frames (n + 1)) = s.frames (n + 1) := hsame
    have hafter := (modest_frames hpure (n + 1)).after_eq_of_pass_eq hpure hpass
    exact Snapshot.covers_of_after_eq (hpure stmt hstmt) htarget (hafter stmt hstmt)

/-- A complete analysis without regard to the order of statements is a post-fixpoint: what a statement gives
to its target in the final frame is covered by what the target holds there. -/
theorem covers_of_isComplete (hmodule : s.kind = .module) (hpure : ∀ stmt ∈ s.body, stmt.isPure = true)
    (hf : o.flowSensitive = false) {policy : Policy} (hvalid : o.validate = .ok policy) (hequal : s.TellsApart)
    (tracing : Bool) (start : σ) :
    ∃ res, (s.alone o tracing).analyze none none start = .ok res ∧
      (res.isComplete = true → ∀ stmt ∈ s.body, stmt.target ≠ "" →
        ∃ v, Dict.get? (res.state.frameAt s.name .root) stmt.target = some v ∧
          v.Covers ((res.state.frameAt s.name .root).value stmt)) := by
  obtain ⟨res, hres, -, hend⟩ := analyze_passes (t := tracing) hmodule
    (fun stmt hstmt => Stmt.isLocal_of_isPure (hpure stmt hstmt)) hf hvalid start
  refine ⟨res, hres, fun hcomplete => ?_⟩
  rcases hend with ⟨n, hsettles, -, -, -, hframe⟩ | ⟨hcapped, -⟩
  · rw [hframe]
    exact covers_of_settles hpure hequal hsettles
  · simp [Result.isComplete, hcapped] at hcomplete

/-- A loop that puts a number into a list and takes it out again. -/
def wrappedNumber : Scope :=
  { Scope.emptyModule "m" with
    body := [.const "x" (.int 1), .label "L", .build "y" .list ["x"] [], .subscriptLoad "z" "y" "x",
      .jump true (.name "z") "L"] }

theorem frames_wrappedNumber (n : Nat) : wrappedNumber.frames (n + 1) = wrappedNumber.frames 1 := by
  induction n with
  | zero => rfl
  | succ n ih =>
    have hsecond : wrappedNumber.pass false (wrappedNumber.frames 1) = wrappedNumber.frames 1 := by rfl
    rw [frames, ih]
    exact hsecond

theorem tellsApart_wrappedNumber : wrappedNumber.TellsApart := by
  intro n name v w hv hw _
  cases n with
  | zero => cases hw
  | succ n =>
    rw [frames_wrappedNumber] at hv hw
    exact Option.some.inj (hv.symm.trans hw)

theorem covers_of_isComplete_wrappedNumber :
    wrappedNumber.kind = .module ∧ (∀ stmt ∈ wrappedNumber.body, stmt.isPure = true) ∧
      wrappedNumber.TellsApart ∧
      ∃ res : Result Unit, (wrappedNumber.alone { flowSensitive := false } false).analyze none none () = .ok res ∧
        res.isComplete = true ∧ ∀ stmt ∈ wrappedNumber.body, stmt.target ≠ "" →
          ∃ v, Dict.get? (res.state.frameAt "m" .root) stmt.target = some v ∧
            v.Covers ((res.state.frameAt "m" .root).value stmt) := by
  have hpure : ∀ stmt ∈ wrappedNumber.body, stmt.isPure = true := by decide
  have hvalid : Options.validate { flowSensitive := false } = .ok .callSite :=
    Options.validate_iterations (n := 10000) (by decide) false
  obtain ⟨res, hres, hcovers⟩ :=
    covers_of_isComplete (s := wrappedNumber) rfl hpure rfl hvalid tellsApart_wrappedNumber false ()
  obtain ⟨res', hres', hcut, hend⟩ := analyze_passes (s := wrappedNumber) (t := false) rfl
    (fun stmt hstmt => Stmt.isLocal_of_isPure (hpure stmt hstmt)) rfl hvalid ()
  obtain rfl := Except.ok.inj (hres.symm.trans hres')
  have hsettles : wrappedNumber.Settles 1 := by
    rw [Settles, frames_wrappedNumber, Snapshot.equal_refl]
  have hcomplete : res.isComplete = true := by
    rcases hend with ⟨n, -, -, -, huncapped, -⟩ | ⟨-, hlate⟩
    · simp [Result.isComplete, huncapped, hcut]
    · exact absurd (hlate 1 hsettles) (by decide)
  exact ⟨rfl, hpure, tellsApart_wrappedNumber, res, hres, hcomplete, hcovers hcomplete⟩

end Scope

end AbstractFlow
