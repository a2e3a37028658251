import AbstractFlow.Proofs.Analysis.Contexts
import AbstractFlow.Proofs.Analysis.Summaries

/-! # The frames of a result

A result lists the frames that bind anything, each once and under its own context, and gives back the bindings
of each. What it says of a variable under all contexts joins the values in these frames. Where merging obeys the
laws of a semilattice, that covers each of them.
-/
namespace AbstractFlow

theorem Value.Orderly.mono {vs ws : List Value} (h : Orderly vs) (hsub : ∀ w ∈ ws, w ∈ vs) : Orderly ws where
  neat v hv := h.neat v (hsub v hv)
  named v hv := h.named v (hsub v hv)
  keys v hv w hw := h.keys v (hsub v hv) w (hsub w hw)

/-- The values of a variable in the frames of its scope. -/
def State.bound (s : State) (scope name : String) : List Value :=
  s.memory.filterMap fun e => if e.1.scope = scope then Dict.get? e.2 name else none

theorem State.mem_bound {s : State} (h : s.memory.keys.Nodup) {scope name : String} {v : Value} :
    v ∈ s.bound scope name ↔ ∃ key : FrameKey, key.scope = scope ∧ Memory.get? s.memory key name = some v := by
  constructor
  · intro hv
    obtain ⟨e, he, hv⟩ := List.mem_filterMap.mp hv
    split at hv
    · rename_i hscope
      refine ⟨e.1, hscope, ?_⟩
      rw [Memory.get?, Memory.frame, Table.get?_of_mem h he]
      exact hv
    · cases hv
  · rintro ⟨key, rfl, hv⟩
    unfold Memory.get? Memory.frame at hv
    cases hframe : Table.get? s.memory key with
    | none => simp [hframe, Dict.get?] at hv
    | some frame =>
      rw [hframe] at hv
      exact List.mem_filterMap.mpr ⟨(key, frame), Table.mem_of_get? hframe, by simpa using hv⟩

namespace Result

variable {σ : Type} {res : Result σ} {o : Options} {policy : Policy}

theorem mem_lookups (h : res.state.Filed o policy) {scope name : String} {v : Value} :
    v ∈ (res.contexts scope).filterMap (fun c => res.lookupIn scope c name) ↔ v ∈ res.state.bound scope name := by
  have hlookup : ∀ {key : FrameKey}, key ∈ res.state.frameKeys →
      res.lookupIn key.scope key.context name = Memory.get? res.state.memory key name := by
    intro key hkey
    rw [lookupIn, State.frameAt, (h.known_of_mem_frameKeys hkey).2]
    rfl
  rw [State.mem_bound h.nodup]
  constructor
  · intro hv
    obtain ⟨c, hc, hv⟩ := List.mem_filterMap.mp hv
    obtain ⟨key, hkey, rfl⟩ := List.mem_map.mp hc
    obtain ⟨hkey, hscope⟩ := List.mem_filter.mp hkey
    rw [← of_decide_eq_true hscope] at hv
    exact ⟨key, of_decide_eq_true hscope, (hlookup hkey).symm.trans hv⟩
  · rintro ⟨key, rfl, hv⟩
    have hkey : key ∈ res.state.frameKeys := by
      rw [h.mem_frameKeys]
      intro hempty
      rw [Memory.get?, hempty] at hv
      cases hv
    exact List.mem_filterMap.mpr ⟨key.context, List.mem_map.mpr ⟨key, List.mem_filter.mpr ⟨hkey, by simp⟩, rfl⟩,
      (hlookup hkey).trans hv⟩

end Result

namespace Analyzer

variable {σ : Type}

/-- What the frames of a result hold is in canonical form. -/
theorem canonical_analyze {o : Options} {bindings : List Prebinding} (hbindings : ∀ b ∈ bindings, b.value.Built)
    {tracing : Bool} {p : Program} {oracle : Option (Oracle σ)} {start : σ} {res : Result σ}
    (hres : (ofProgram o bindings tracing p).analyze none oracle start = .ok res) :
    res.state.memory.Holds Value.Canonical := by
  obtain ⟨ha, -⟩ := distinct_ofProgram o bindings tracing p
  have hvalues : ∀ b ∈ (ofProgram o bindings tracing p).bindings, b.value.Canonical := by
    rw [bindings_ofProgram]
    exact fun b hb => (hbindings b hb).canonical
  generalize ofProgram o bindings tracing p = a at *
  obtain ⟨τ, oracle', start', r₀, r, r', hstarted, hexplore, hsolve, hstate, -⟩ := exists_solved hres
  have hdone := (summarises_analysis ha hvalues hstarted callBound).done r'
    (Except.bind_eq_ok.mpr ⟨r, hexplore, hsolve⟩)
  rw [hstate]
  exact (hdone.around "").sound.holds.memory

theorem exists_policy {o : Options} {bindings : List Prebinding} {tracing : Bool} {p : Program}
    {oracle : Option (Oracle σ)} {start : σ} {res : Result σ}
    (hres : (ofProgram o bindings tracing p).analyze none oracle start = .ok res) :
    ∃ policy, o.validate = .ok policy := by
  obtain ⟨-, hoptions⟩ := distinct_ofProgram o bindings tracing p
  obtain ⟨τ, oracle', start', r₀, r, r', hstarted, -⟩ := exists_solved hres
  obtain ⟨policy, -, hpolicy, -⟩ := started_eq_some hstarted
  exact ⟨policy, hoptions ▸ hpolicy⟩

/-- A result lists the frames that bind anything, each once and under its own context. What it says of a variable
under all contexts covers the value in each frame, if the values in the frames are orderly. -/
theorem frames_listed {o : Options} {bindings : List Prebinding} (hbindings : ∀ b ∈ bindings, b.value.Built)
    {tracing : Bool} {p : Program} {oracle : Option (Oracle σ)} {start : σ} {res : Result σ}
    (hres : (ofProgram o bindings tracing p).analyze none oracle start = .ok res) :
    res.state.frameKeys.Nodup ∧
    (∀ key, key ∈ res.state.frameKeys ↔ res.state.memory.frame key ≠ []) ∧
    (∀ key ∈ res.state.frameKeys, res.state.frameAt key.scope key.context = res.state.memory.frame key) ∧
    ∀ scope name, Value.Orderly (res.state.bound scope name) →
      ∀ key : FrameKey, key.scope = scope → ∀ v, Memory.get? res.state.memory key name = some v →
        (res.merged scope name).Covers v := by
  obtain ⟨policy, hpolicy⟩ := exists_policy hres
  have hfiled := filed_analyze hpolicy bindings tracing p hres
  have hcanonical := canonical_analyze hbindings hres
  refine ⟨hfiled.nodup_frameKeys, fun key => hfiled.mem_frameKeys, fun key hkey => ?_, ?_⟩
  · rw [State.frameAt, (hfiled.known_of_mem_frameKeys hkey).2]
  · intro scope name horderly key hscope v hv
    refine Value.Orderly.covers_mem (horderly.mono fun w hw => (Result.mem_lookups hfiled).mp hw) (fun w hw => ?_)
      ((Result.mem_lookups hfiled).mpr ((State.mem_bound hfiled.nodup).mpr ⟨key, hscope, hv⟩))
    obtain ⟨_, -, hw⟩ := (State.mem_bound hfiled.nodup).mp ((Result.mem_lookups hfiled).mp hw)
    exact hcanonical.get? hw

/-- A function is called twice with numbers, and has a frame for each call. -/
theorem frames_listed_twoNumbers :
    ∃ res : Result Unit, (ofProgram {} [] false twoNumbers).analyze none none () = .ok res ∧
      1 < (res.contexts "m.f").length ∧ 1 < (res.state.bound "m.f" "p").length ∧ res.state.frameKeys.Nodup ∧
      ∀ key : FrameKey, key.scope = "m.f" → ∀ v, Memory.get? res.state.memory key "p" = some v →
        (res.merged "m.f" "p").Covers v := by
  have htest : ((ofProgram {} [] false twoNumbers).analyze none none ()).toOption.any (fun res =>
      decide (1 < (res.contexts "m.f").length ∧ 1 < (res.state.bound "m.f" "p").length) &&
        (res.state.bound "m.f" "p").all Value.isUnsignedInt) = true := by decide +kernel
  obtain ⟨res, hres, hbound⟩ := Except.exists_ok_of_any htest
  obtain ⟨hlength, hbound⟩ := (Bool.and_eq_true _ _).mp hbound
  obtain ⟨hcontexts, hvalues⟩ := of_decide_eq_true hlength
  obtain ⟨hnodup, -, -, hcovers⟩ := frames_listed (by simp) hres
  exact ⟨res, hres, hcontexts, hvalues, hnodup,
    hcovers "m.f" "p" (Value.orderly_of_isUnsignedInt (List.all_eq_true.mp hbound))⟩

/-- Three calls with their own frames: the values in these are a zero, what is left of a fraction below zero, and
an interval from zero. The first two are one member of a set, and what is left of it is the zero that came first.
So their join starts from that zero, and does not cover the other one. -/
theorem merged_loses_sign :
    ∃ (res : Result Unit) (key : FrameKey) (v : Value),
      (ofProgram {} [] false vanishingFraction).analyze none none () = .ok res ∧
      key ∈ res.state.frameKeys ∧ key.scope = "m.f" ∧ Memory.get? res.state.memory key "p" = some v ∧
      ¬ (res.merged "m.f" "p").Covers v := by
  let misses (res : Result Unit) (key : FrameKey) : Bool :=
    key.scope = "m.f" && (Memory.get? res.state.memory key "p").any fun v => !decide ((res.merged "m.f" "p").Covers v)
  have htest : ((ofProgram {} [] false vanishingFraction).analyze none none ()).toOption.any (fun res =>
      res.state.frameKeys.any (misses res)) = true := by decide +kernel
  obtain ⟨res, hres, hmisses⟩ := Except.exists_ok_of_any htest
  obtain ⟨key, hkey, hmisses⟩ := List.any_eq_true.mp hmisses
  simp only [misses, Bool.and_eq_true, decide_eq_true_eq, Option.any_eq_true, Bool.not_eq_true',
    decide_eq_false_iff_not] at hmisses
  obtain ⟨hscope, v, hv, hcovers⟩ := hmisses
  exact ⟨res, key, v, hres, hkey, hscope, hv, hcovers⟩

end Analyzer

end AbstractFlow
