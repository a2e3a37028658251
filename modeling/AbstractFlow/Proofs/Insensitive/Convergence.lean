import AbstractFlow.Proofs.Insensitive.FlatFrames

/-! # Passes over flat containers settle

As long as passes do not settle, the height of the frame rises or its containers reach further. Both are
bounded, so the number of passes is. The bound is a large one: where the size of a container is known and a
loop stores into it, the upper bound grows with every pass, and digests see every single count up to the
largest exact integer. The limit of a run counts statements in one machine word, so a long body may not get
as many passes as it takes.
-/
namespace AbstractFlow

/-- Fewer passes than this are made before one leaves the frame equal. -/
def passBound (body : List Stmt) : Nat :=
  2 * (body.length * (Value.heightBound (Extent.ofBody body) + 1)) +
    (builds body).length * (3 * 2 ^ 54 + (body.map Stmt.width).sum) + 3

namespace Scope

variable {s : Scope}

theorem flat_frames (hflat : FlatBody s.body) (n : Nat) : (s.frames n).Flat s.body := by
  induction n with
  | zero => exact Snapshot.flat_nil
  | succ n ih => exact ih.afterAll hflat (List.Subset.refl _) _

theorem exists_settles (hflat : FlatBody s.body) : ∃ n < passBound s.body, s.Settles n := by
  by_contra hnone
  simp only [not_exists, not_and] at hnone
  -- The first pass overwrites, so the account starts with the frame that it leaves.
  have hgrows : ∀ n, n + 1 < passBound s.body →
      n ≤ (s.frames (n + 1)).height s.body + (s.frames (n + 2)).height s.body + (s.frames (n + 2)).reach s.body := by
    intro n hn
    induction n with
    | zero => exact Nat.zero_le _
    | succ n ih =>
      have hlt := ((flat_frames hflat (n + 1)).afterAll_equal_or_lt hflat).resolve_left (hnone (n + 2) hn)
      exact Nat.succ_le_of_lt ((ih (by omega)).trans_lt hlt)
  have hbounded : ∀ n, (s.frames (n + 1)).height s.body + (s.frames (n + 2)).height s.body +
      (s.frames (n + 2)).reach s.body + 3 ≤ passBound s.body := by
    intro n
    have hheight := (flat_frames hflat (n + 1)).height_le
    have hheight' := (flat_frames hflat (n + 2)).height_le
    have hreach := (flat_frames hflat (n + 2)).reach_le
    have hsteps : Number.steps (largestSize s.body) ≤ 3 * 2 ^ 54 + (s.body.map Stmt.width).sum :=
      (Number.steps_le _).trans_eq (by rw [largestSize, Nat.add_sub_cancel_left])
    have hreach' := hreach.trans (Nat.mul_le_mul_left (builds s.body).length hsteps)
    unfold passBound
    omega
  have hbound := hbounded (passBound s.body - 2)
  have hlate := hgrows (passBound s.body - 2) (by unfold passBound; omega)
  omega

/-- Whether the analysis of a module, without regard to the order of its statements, converges by itself at
every limit from some one on, all limits being words. -/
def ConvergesInWord (s : Scope) : Prop :=
  ∃ limit : Int, Word.fits limit = true ∧ ∀ (o : Options) (policy : Policy) (tracing : Bool),
    o.validate = .ok policy → o.flowSensitive = false → Word.fits o.maxIterations = true →
      limit ≤ o.maxIterations →
      ∃ res : Result Unit, (s.alone o tracing).analyze none none () = .ok res ∧
        res.stats.iterationCapHit = 0 ∧ res.isComplete = true ∧
        ∃ n, s.Settles n ∧ res.state.frameAt s.name .root = s.frames (n + 1)

theorem convergesInWord_iff (hmodule : s.kind = .module) (hlocal : ∀ stmt ∈ s.body, stmt.isLocal = true) :
    s.ConvergesInWord ↔ ∃ n, s.Settles n ∧ (n + 1) * s.body.length < Word.half := by
  have hhalf : (Word.half : Int) = 0x8000000000000000 := rfl
  constructor
  · rintro ⟨limit, hfits, hconverges⟩
    have hvalid := Options.validate_iterations (n := Word.half - 1) (by decide) false
    have hlimit := (Word.fits_iff limit).mp hfits
    obtain ⟨res, hres, huncapped, -⟩ := hconverges _ _ false hvalid rfl (by decide) (by dsimp only; omega)
    obtain ⟨res', hres', -, hend⟩ := analyze_passes (t := false) hmodule hlocal rfl hvalid ()
    obtain rfl := Except.ok.inj (hres.symm.trans hres')
    rcases hend with ⟨n, hsettles, -, hwithin, -⟩ | ⟨hcapped, -⟩
    · exact ⟨n, hsettles, by dsimp only at hwithin; omega⟩
    · omega
  · rintro ⟨n, hsettles, hwithin⟩
    have hfits : Word.fits ((n + 1) * s.body.length : Nat) = true := (Word.fits_iff _).mpr (by omega)
    refine ⟨((n + 1) * s.body.length : Nat), hfits, fun o policy tracing hvalid hf _ hlimit => ?_⟩
    obtain ⟨res, hres, hcut, hend⟩ := analyze_passes (t := tracing) hmodule hlocal hf hvalid ()
    refine ⟨res, hres, ?_⟩
    rcases hend with ⟨m, hm, -, -, huncapped, hframe⟩ | ⟨-, hlate⟩
    · exact ⟨huncapped, by simp [Result.isComplete, huncapped, hcut], m, hm, hframe⟩
    · have := hlate n hsettles
      omega

/-- The analysis of a module with flat containers, without regard to the order of its statements, ends with
the first pass that leaves the frame equal, if the limit allows for all passes up to that one, and is stopped
otherwise. The number of passes depends on the body only, and is bounded. -/
theorem converges_iff_of_flat (hmodule : s.kind = .module) (hflat : FlatBody s.body) :
    ∃ n < passBound s.body, s.Settles n ∧ (∀ m < n, ¬ s.Settles m) ∧
      (∀ (o : Options) (policy : Policy) (tracing : Bool), o.validate = .ok policy → o.flowSensitive = false →
        ∃ res : Result Unit, (s.alone o tracing).analyze none none () = .ok res ∧
          if ((n + 1) * s.body.length : Nat) ≤ o.maxIterations then
            res.stats.iterationCapHit = 0 ∧ res.isComplete = true ∧
              res.state.frameAt s.name .root = s.frames (n + 1)
          else res.stats.iterationCapHit = 1 ∧ res.isComplete = false) ∧
      (s.ConvergesInWord ↔ (n + 1) * s.body.length < Word.half) := by
  classical
  have hlocal : ∀ stmt ∈ s.body, stmt.isLocal = true :=
    fun stmt hstmt => Stmt.isLocal_of_isFlat (hflat.stmts stmt hstmt)
  obtain ⟨bound, hbound, hsettles⟩ := exists_settles hflat
  have hex : ∃ n, s.Settles n := ⟨bound, hsettles⟩
  have hfirst : ∀ m, s.Settles m → Nat.find hex ≤ m := fun m hm => Nat.find_min' hex hm
  refine ⟨Nat.find hex, (hfirst bound hsettles).trans_lt hbound, Nat.find_spec hex, fun m => Nat.find_min hex,
    fun o policy tracing hvalid hf => ?_, ?_⟩
  · obtain ⟨res, hres, hcut, hend⟩ := analyze_passes (t := tracing) hmodule hlocal hf hvalid ()
    have hpos := Options.maxIterations_pos hvalid
    refine ⟨res, hres, ?_⟩
    rcases hend with ⟨n, hn, hnone, hwithin, huncapped, hframe⟩ | ⟨hcapped, hlate⟩
    · obtain rfl : Nat.find hex = n :=
        Nat.le_antisymm (hfirst n hn) (Nat.le_of_not_lt fun hlt => hnone _ hlt (Nat.find_spec hex))
      rw [if_pos (by omega)]
      exact ⟨huncapped, by simp [Result.isComplete, huncapped, hcut], hframe⟩
    · have := hlate _ (Nat.find_spec hex)
      rw [if_neg (by omega)]
      exact ⟨hcapped, by simp [Result.isComplete, hcapped]⟩
  · rw [convergesInWord_iff hmodule hlocal]
    constructor
    · rintro ⟨n, hn, hwithin⟩
      exact (Nat.mul_le_mul_right _ (Nat.succ_le_succ (hfirst n hn))).trans_lt hwithin
    · exact fun hwithin => ⟨_, Nat.find_spec hex, hwithin⟩

/-- A loop that stores into a list, as often as it may go on. -/
def storingLoop (jumps : Nat) : Scope :=
  { Scope.emptyModule "m" with
    body := [.const "x" (.int 1), .build "y" .list ["x"] [], .label "L", .subscriptStore "y" "x" "x"] ++
      List.replicate jumps (.jump true (.name "x") "L") }

theorem length_storingLoop (jumps : Nat) : (storingLoop jumps).body.length = jumps + 4 := by
  rw [storingLoop, List.length_append, List.length_replicate, Nat.add_comm]
  rfl

theorem flatBody_storingLoop (jumps : Nat) : FlatBody (storingLoop jumps).body := by
  have hflat : FlatBody (storingLoop 1).body := ⟨by decide, by decide⟩
  refine hflat.of_subset (List.append_subset.mpr ⟨List.subset_append_left _ _, fun stmt hstmt => ?_⟩)
  rw [List.eq_of_mem_replicate hstmt]
  exact List.mem_append_right _ List.mem_cons_self

theorem converges_iff_of_flat_storingLoop :
    (storingLoop 1).kind = .module ∧ FlatBody (storingLoop 1).body ∧ (storingLoop 1).ConvergesInWord ∧
      ∃ n < passBound (storingLoop 1).body, (storingLoop 1).Settles n ∧ (∀ m < n, ¬ (storingLoop 1).Settles m) ∧
        ∀ (o : Options) (policy : Policy) (tracing : Bool), o.validate = .ok policy → o.flowSensitive = false →
          ∃ res : Result Unit, ((storingLoop 1).alone o tracing).analyze none none () = .ok res ∧
            if ((n + 1) * 5 : Nat) ≤ o.maxIterations then
              res.stats.iterationCapHit = 0 ∧ res.isComplete = true ∧
                res.state.frameAt "m" .root = (storingLoop 1).frames (n + 1)
            else res.stats.iterationCapHit = 1 ∧ res.isComplete = false := by
  have hflat := flatBody_storingLoop 1
  have hbound : passBound (storingLoop 1).body * 5 < Word.half := by decide +kernel
  obtain ⟨n, hn, hsettles, hfirst, hlimits, hword⟩ := converges_iff_of_flat (s := storingLoop 1) rfl hflat
  have hwithin := (Nat.mul_le_mul_right 5 hn).trans_lt hbound
  exact ⟨rfl, hflat, hword.mpr hwithin, n, hn, hsettles, hfirst, hlimits⟩

end Scope

def onesWithin (most : Nat) : Container Value := ⟨.list, ["int"], (Literal.int 1).value, [], [], 1, some most⟩

/-- A list of ones whose size lies between one and a bound. -/
def listedOnes (most : Nat) : Value := [.container (onesWithin most)]

theorem tidy_onesWithin {n : Nat} (h : 0 < n) : (onesWithin n).Tidy := by
  refine ⟨List.pairwise_singleton _ _, List.Subset.refl _, List.Pairwise.nil, List.Subset.refl _, fun m hm => ?_⟩
  rwa [← Option.some.inj hm]

theorem merge_listedOnes {n : Nat} (h : 0 < n) : (listedOnes n).merge (listedOnes 1) = listedOnes n := by
  have hcontainer : (onesWithin n).mergeWith Value.merge (onesWithin 1) = onesWithin n := by
    have hsize : Container.looserSize (some n) (some 1) = some n := congrArg some (Nat.max_eq_left h)
    rw [Container.mergeWith_eq_extend (tidy_onesWithin h) (tidy_onesWithin Nat.one_pos), Container.extend]
    simp only [onesWithin, hsize]
    rfl
  have hmerge : (listedOnes n).merge (listedOnes 1) =
      [.container ((onesWithin n).mergeWith Value.merge (onesWithin 1))] := by
    rw [Value.merge_eq]
    rfl
  rw [hmerge, hcontainer, listedOnes]

theorem store_listedOnes {n : Nat} (hpos : 0 < n) (h : n + 1 < Word.half) :
    (listedOnes n).store (Literal.int 1).value (Literal.int 1).value = listedOnes (n + 1) := by
  have hcontainer : (onesWithin n).withStore (Literal.int 1).value (Literal.int 1).value = onesWithin (n + 1) := by
    have hsize : (some n).bind Container.nextSize = some (n + 1) := if_pos h
    rw [Container.withStore_eq_extend (tidy_onesWithin hpos), Container.extend]
    simp only [onesWithin, hsize]
    rfl
  have hsorted : Dict.Sorted (listedOnes n).keyed := List.pairwise_singleton _ _
  rw [Value.store_eq_map hsorted]
  exact congrArg (fun c => [Object.container c]) hcontainer

theorem Snapshot.afterAll_jumps (frame : Snapshot) (overwrites : Bool) (jumps : Nat) :
    frame.afterAll overwrites (List.replicate jumps (.jump true (.name "x") "L")) = frame := by
  induction jumps with
  | zero => rfl
  | succ jumps ih => exact ih

namespace Scope

/-- Every pass adds one to the upper bound of the size. -/
theorem frames_storingLoop (jumps : Nat) {n : Nat} (h : n + 2 < Word.half) :
    (storingLoop jumps).frames (n + 1) = [("x", (Literal.int 1).value), ("y", listedOnes (n + 2))] := by
  have hpass : ∀ (overwrites : Bool) (frame : Snapshot), (storingLoop jumps).pass overwrites frame =
      (frame.afterAll overwrites [.const "x" (.int 1), .build "y" .list ["x"] [], .label "L"]).after overwrites
        (.subscriptStore "y" "x" "x") :=
    fun overwrites frame => List.foldl_append.trans (Snapshot.afterAll_jumps _ overwrites jumps)
  induction n with
  | zero =>
    rw [frames, hpass]
    rfl
  | succ n ih =>
    have hbuild : Snapshot.afterAll [("x", (Literal.int 1).value), ("y", listedOnes (n + 2))] false
        [.const "x" (.int 1), .build "y" .list ["x"] [], .label "L"] =
        [("x", (Literal.int 1).value), ("y", (listedOnes (n + 2)).merge (listedOnes 1))] := rfl
    have hstore : ∀ v : Value, Snapshot.after [("x", (Literal.int 1).value), ("y", v)] false
        (.subscriptStore "y" "x" "x") =
        [("x", (Literal.int 1).value), ("y", v.store (Literal.int 1).value (Literal.int 1).value)] := fun _ => rfl
    have hfirst : (n + 1 == 0) = false := rfl
    rw [frames, ih (Nat.lt_of_succ_lt h), hpass, hfirst, hbuild, hstore, merge_listedOnes (Nat.succ_pos _),
      store_listedOnes (Nat.succ_pos _) h]

theorem settles_storingLoop (jumps : Nat) {n : Nat} (h : n + 3 < Word.half) :
    (storingLoop jumps).Settles (n + 1) ↔ (listedOnes (n + 3)).equal (listedOnes (n + 2)) = true := by
  rw [Settles, frames_storingLoop jumps h, frames_storingLoop jumps (Nat.lt_of_succ_lt h)]
  simp [Snapshot.equal, Dict.keys, Value.equal_refl]

/-- The loop converges only by two bounds in a row that have the same digest. -/
theorem equal_of_convergesInWord_storingLoop {jumps : Nat} (h : (storingLoop jumps).ConvergesInWord) :
    ∃ n, (n + 2) * (jumps + 4) < Word.half ∧ (listedOnes (n + 3)).equal (listedOnes (n + 2)) = true := by
  have hlocal : ∀ stmt ∈ (storingLoop jumps).body, stmt.isLocal = true :=
    fun stmt hstmt => Stmt.isLocal_of_isFlat ((flatBody_storingLoop jumps).stmts stmt hstmt)
  obtain ⟨n, hsettles, hwithin⟩ := (convergesInWord_iff rfl hlocal).mp h
  rw [length_storingLoop] at hwithin
  cases n with
  | zero =>
    rw [Settles, frames_storingLoop jumps (by decide)] at hsettles
    cases hsettles
  | succ n =>
    have hlong : (n + 2) * 4 ≤ (n + 2) * (jumps + 4) := Nat.mul_le_mul_left _ (Nat.le_add_left 4 jumps)
    have hsize : n + 3 < Word.half := by
      change (n + 2) * (jumps + 4) < Word.half at hwithin
      omega
    exact ⟨n, hwithin, (settles_storingLoop jumps hsize).mp hsettles⟩

/-- A body may be so long that no limit of one word lets it converge. And 1025 statements are enough, unless two
bounds in a row, both of them exact numbers, have the same digest. -/
theorem not_convergesInWord_storingLoop :
    ((storingLoop (2 ^ 61)).kind = .module ∧ FlatBody (storingLoop (2 ^ 61)).body ∧
      ¬ (storingLoop (2 ^ 61)).ConvergesInWord) ∧
    (storingLoop 1021).kind = .module ∧ FlatBody (storingLoop 1021).body ∧
      (storingLoop 1021).body.length = 1025 ∧
      ((storingLoop 1021).ConvergesInWord →
        ∃ n, n + 1 < 2 ^ 53 ∧ (listedOnes (n + 1)).equal (listedOnes n) = true) := by
  have hhalf : Word.half = 2 ^ 63 := by decide
  refine ⟨⟨rfl, flatBody_storingLoop _, fun h => ?_⟩, rfl, flatBody_storingLoop _, length_storingLoop _, fun h => ?_⟩
  · obtain ⟨n, hwithin, hequal⟩ := equal_of_convergesInWord_storingLoop h
    have hdiffer : ∀ n < 2, (listedOnes (n + 3)).equal (listedOnes (n + 2)) = false := by decide +kernel
    rw [hdiffer n (by omega)] at hequal
    cases hequal
  · obtain ⟨n, hwithin, hequal⟩ := equal_of_convergesInWord_storingLoop h
    exact ⟨n + 2, by omega, hequal⟩

end Scope

end AbstractFlow
