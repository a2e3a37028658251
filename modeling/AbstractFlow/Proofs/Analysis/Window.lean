import AbstractFlow.Proofs.Analysis.Contexts
import AbstractFlow.Proofs.Digest.Ideal
import AbstractFlow.Proofs.Oracle.Keys
import Mathlib.Data.List.DropRight

/-! # Contexts as windows

A context that is derived from the root call by call holds the last identifiers that its policy remembers, in
their order, and nothing else: what falls out of the window never comes back. Its key tells it from all other
contexts if the hash function has no collisions. Along an analysis no context is longer than the window.
-/
namespace AbstractFlow

def given (identifier : String) : Option String := if identifier = "" then none else some identifier

/-- What a policy remembers of a call site and a receiver. -/
def Policy.remembered : Policy → String × String → Option String
  | .callSite, (site, _) => given site
  | .kcfa, (site, _) => given site
  | .object, (_, receiver) => given receiver
  | .hybrid, (site, receiver) => (given receiver).or (given site)
  | _, _ => none

namespace Context

theorem push_window (elems : List String) {elem : String} (helem : elem ≠ "") (k : Nat) :
    (⟨elems.rtake k⟩ : Context).push elem k = ⟨(elems ++ [elem]).rtake k⟩ := by
  have hrejoin : elems.rtake k ++ [elem] = (elems ++ [elem]).drop (elems.length - k) :=
    (List.drop_append_of_le_length (Nat.sub_le _ _)).symm
  unfold push
  rw [if_neg helem]
  dsimp only
  rw [hrejoin, List.drop_drop, List.length_drop, List.rtake, List.length_append, List.length_singleton]
  congr 2
  omega

/-- A call moves the window by what the policy remembers of it. -/
theorem push_selected (elems : List String) {p : Policy} (k : Nat) (site receiver : String) :
    (⟨elems.rtake k⟩ : Context).push (selected p site receiver) k =
      ⟨(elems ++ (p.remembered (site, receiver)).toList).rtake k⟩ := by
  have hpush : ∀ elem : String, (⟨elems.rtake k⟩ : Context).push elem k =
      ⟨(elems ++ (given elem).toList).rtake k⟩ := by
    intro elem
    unfold given
    split
    · rename_i hempty
      simp [push, hempty]
    · rename_i helem
      exact push_window elems helem k
  cases p with
  | callSite => exact hpush site
  | kcfa => exact hpush site
  | object => exact hpush receiver
  | hybrid =>
    have hselected : given (selected .hybrid site receiver) = (given receiver).or (given site) := by
      unfold selected
      by_cases hreceiver : receiver = "" <;> simp [given, hreceiver]
    rw [hpush, hselected]
    rfl
  | insensitive => simp [selected, push, Policy.remembered]
  | unset => simp [selected, push, Policy.remembered]
  | other name => simp [selected, push, Policy.remembered]

theorem derive_window {p : Policy} (hp : ∀ name, p ≠ .other name) (k : Int) (calls : List (String × String))
    (call : String × String) :
    (⟨(calls.filterMap p.remembered).rtake k.toNat⟩ : Context).derive p k call.1 call.2 =
      .ok ⟨((calls ++ [call]).filterMap p.remembered).rtake k.toNat⟩ := by
  have hmore : (calls ++ [call]).filterMap p.remembered =
      calls.filterMap p.remembered ++ (p.remembered call).toList := by
    rw [List.filterMap_append]
    cases hcall : p.remembered call <;> simp [hcall]
  have hmoves := push_selected (calls.filterMap p.remembered) (p := p) k.toNat call.1 call.2
  rw [hmore]
  cases p with
  | insensitive =>
    have hnone : Policy.remembered .insensitive = fun _ => none := rfl
    simp [derive, hnone, root]
  | unset =>
    have hnone : Policy.remembered .unset = fun _ => none := rfl
    simp [derive, hnone, root]
  | other name => exact absurd rfl (hp name)
  | _ => exact congrArg Except.ok hmoves

/-- Contexts that are derived one from the other, call by call. -/
def deriveAll (p : Policy) (k : Int) (calls : List (String × String)) : Except String Context :=
  calls.foldlM (fun c call => c.derive p k call.1 call.2) root

theorem deriveAll_eq {p : Policy} (hp : ∀ name, p ≠ .other name) (k : Int) (calls : List (String × String)) :
    deriveAll p k calls = .ok ⟨(calls.filterMap p.remembered).rtake k.toNat⟩ := by
  induction calls using List.reverseRecOn with
  | nil =>
    rw [List.filterMap_nil, List.rtake_nil]
    rfl
  | append_singleton calls call ih =>
    unfold deriveAll at ih ⊢
    rw [List.foldlM_append, ih]
    exact (bind_pure _).trans (derive_window hp k calls call)

/-! ## Keys -/

/-- The key of a context by a hash function and a way to write its digests. -/
def keyBy {D : Type} (H : Hasher D) (write : D → String) (c : Context) : String :=
  if c.isRoot then "" else write (c.digest H) ++ ":" ++ toString c.depth

theorem key_eq_keyBy (c : Context) :
    c.key = c.keyBy .spooky fun d => String.ofList (Text.hexDigits 16 d.toNat) := rfl

variable {D : Type} {H : Hasher D}

theorem digest_eq_chain (H : Hasher D) (c : Context) :
    c.digest H = H.chain 0 (Hasher.closed (c.elems.map .ofString)) := by
  unfold digest
  rw [Hasher.ofWord_eq, Hasher.texts_chain, List.nil_append]

end Context

theorem Hasher.chain_inj_of_length {D : Type} {H : Hasher D}
    (habsorb : ∀ {m m' d d'}, H.absorb m d = H.absorb m' d' → m = m' ∧ d = d') {w : UInt64}
    {ms ms' : List (List UInt8)} (hlength : ms.length = ms'.length) (h : H.chain w ms = H.chain w ms') :
    ms = ms' := by
  induction ms using List.reverseRecOn generalizing ms' with
  | nil => exact (List.eq_nil_of_length_eq_zero hlength.symm).symm
  | append_singleton ms m ih =>
    cases ms' using List.reverseRecOn with
    | nil => simp at hlength
    | append_singleton ms' m' =>
      rw [chain_concat, chain_concat] at h
      obtain ⟨rfl, hrest⟩ := habsorb h
      rw [ih (by simpa using hlength) hrest]

namespace Context

variable {D : Type} {H : Hasher D}

theorem digest_inj (habsorb : ∀ {m m' d d'}, H.absorb m d = H.absorb m' d' → m = m' ∧ d = d') {c d : Context}
    (hdepth : c.depth = d.depth) (h : c.digest H = d.digest H) : c.elems = d.elems := by
  rw [digest_eq_chain, digest_eq_chain] at h
  refine Hasher.closed_texts_inj.mp (Hasher.chain_inj_of_length habsorb ?_ h)
  have hlength : ∀ e : Context, (Hasher.closed (e.elems.map .ofString)).length = e.depth * 2 := by
    intro e
    simp [Hasher.closed, depth, Function.comp_def]
  rw [hlength, hlength, hdepth]

theorem toList_keyBy {c : Context} (hroot : c.isRoot = false) (write : D → String) :
    (c.keyBy H write).toList = (write (c.digest H)).toList ++ ':' :: (toString (c.depth : Int)).toList := by
  unfold keyBy
  rw [hroot]
  simp only [Bool.false_eq_true, if_false, String.toList_append, List.append_assoc]
  rfl

/-- Without collisions, equal keys are those of equal contexts. -/
theorem keyBy_inj (habsorb : ∀ {m m' d d'}, H.absorb m d = H.absorb m' d' → m = m' ∧ d = d')
    {write : D → String} (hwrite : Function.Injective write) (c d : Context) :
    c.keyBy H write = d.keyBy H write ↔ c.elems = d.elems := by
  constructor
  · intro h
    have hcolon : ∀ i : Int, ':' ∉ (toString i).toList := not_mem_toString (by decide) (by decide)
    cases hc : c.isRoot <;> cases hd : d.isRoot
    · have hlist := String.toList_inj.mpr h
      rw [toList_keyBy hc, toList_keyBy hd] at hlist
      obtain ⟨hdigest, hdepth⟩ := append_cons_inj_of_last (hcolon _) (hcolon _) hlist
      have hdepth : (c.depth : Int) = d.depth := Int.repr_injective (String.toList_inj.mp hdepth)
      exact digest_inj habsorb (Int.ofNat_inj.mp hdepth) (hwrite (String.toList_inj.mp hdigest))
    · have hlist := String.toList_inj.mpr h
      rw [toList_keyBy hc] at hlist
      simp [keyBy, hd] at hlist
    · have hlist := String.toList_inj.mpr h
      rw [toList_keyBy hd] at hlist
      simp [keyBy, hc] at hlist
    · rw [List.isEmpty_iff.mp hc, List.isEmpty_iff.mp hd]
  · intro h
    obtain ⟨elems⟩ := c
    obtain ⟨elems'⟩ := d
    rw [show elems = elems' from h]

end Context

/-! ## Contexts of a result -/

theorem Options.contextDepth_of_validate {o : Options} {policy : Policy} (h : o.validate = .ok policy) :
    0 ≤ o.contextDepth := by
  unfold validate at h
  split at h
  · cases h
  · split at h
    · cases h
    · omega

/-- A context of a frame that is listed, or of an end of a call. -/
inductive State.Shows (s : State) : Context → Prop where
  | frame {key : FrameKey} (h : key ∈ s.frameKeys) : Shows s key.context
  | caller {e : Edge} (h : e ∈ s.callGraph.edges) : Shows s e.callerContext
  | callee {e : Edge} (h : e ∈ s.callGraph.edges) : Shows s e.calleeContext

theorem State.Filed.allows_of_shows {o : Options} {policy : Policy} {s : State} (h : s.Filed o policy)
    {c : Context} (hc : s.Shows c) : o.Allows policy c := by
  cases hc with
  | frame hkey => exact h.seen _ (h.known_of_mem_frameKeys hkey).1
  | caller he => exact h.seen _ (h.edges _ he).1
  | callee he => exact h.seen _ (h.edges _ he).2

/-- Deriving contexts from the root, call by call, gives the last `k` of the identifiers that the policy
remembers. Keys tell contexts apart if the hash function has no collisions. And whatever is analysed, no frame
and no end of a call in the result has a longer context than the options allow, or one other than the root if
contexts do not count. -/
theorem context_window :
    (∀ (p : Policy), (∀ name, p ≠ .other name) → ∀ (k : Int) (calls : List (String × String)),
      ∃ c, Context.deriveAll p k calls = .ok c ∧ c.elems = (calls.filterMap p.remembered).rtake k.toNat) ∧
    (∀ c : Context, c.key = c.keyBy .spooky fun d => String.ofList (Text.hexDigits 16 d.toNat)) ∧
    (∀ (D : Type) (H : Hasher D) (write : D → String),
      (∀ {m m' d d'}, H.absorb m d = H.absorb m' d' → m = m' ∧ d = d') → Function.Injective write →
      ∀ c d : Context, c.keyBy H write = d.keyBy H write ↔ c.elems = d.elems) ∧
    ∀ (o : Options) (policy : Policy), o.validate = .ok policy →
      ∀ (bindings : List Prebinding) (tracing : Bool) (p : Program) (σ : Type) (oracle : Option (Oracle σ))
        (start : σ) (res : Result σ),
      (Analyzer.ofProgram o bindings tracing p).analyze none oracle start = .ok res →
      ∀ c, res.state.Shows c → (c.depth : Int) ≤ o.contextDepth ∧ (policy = .insensitive → c = .root) := by
  refine ⟨fun p hp k calls => ⟨_, Context.deriveAll_eq hp k calls, rfl⟩, Context.key_eq_keyBy,
    fun D H write habsorb hwrite => Context.keyBy_inj habsorb hwrite, ?_⟩
  intro o policy hpolicy bindings tracing p σ oracle start res hres c hc
  have hallowed := (Analyzer.filed_analyze hpolicy bindings tracing p hres).allows_of_shows hc
  refine ⟨?_, hallowed.root⟩
  have hdepth := hallowed.depth
  have hvalid := Options.contextDepth_of_validate hpolicy
  omega

/-- The receiver comes before the call site, and what is empty is not remembered. Two functions that call each
other are reached by call sites, one at a time. -/
theorem context_window_receivers :
    (∃ c, Context.deriveAll .hybrid 2 [("m:1", ""), ("m:2", "o"), ("", ""), ("m:4", "")] = .ok c ∧
      c.elems = ["o", "m:4"]) ∧
    Context.keyBy Hasher.remembering (fun d => toString (Encodable.encode d)) ⟨["o", "m:4"]⟩ ≠
      Context.keyBy Hasher.remembering (fun d => toString (Encodable.encode d)) ⟨["m:4", "o"]⟩ ∧
    ∃ res : Result Unit,
      (Analyzer.ofProgram { contextDepth := 1 } [] false Analyzer.mutualRecursion).analyze none none () = .ok res ∧
      (∃ c, res.state.Shows c ∧ c.depth = 1) ∧ ∀ c, res.state.Shows c → (c.depth : Int) ≤ 1 := by
  obtain ⟨hderive, -, hkeys, hshown⟩ := context_window
  refine ⟨?_, ?_, ?_⟩
  · obtain ⟨c, hc, helems⟩ := hderive .hybrid (fun _ => Policy.noConfusion) 2
      [("m:1", ""), ("m:2", "o"), ("", ""), ("m:4", "")]
    exact ⟨c, hc, helems.trans (by decide)⟩
  · intro h
    have hwrite : Function.Injective fun d : Nat × List (List Nat) => toString (Encodable.encode d) :=
      fun d d' hd => Encodable.encode_injective (Nat.repr_injective hd)
    exact absurd ((hkeys _ _ _ Hasher.ideal_remembering.absorb hwrite _ _).mp h) (by decide)
  · have htest : ((Analyzer.ofProgram { contextDepth := 1 } [] false Analyzer.mutualRecursion).analyze none none
        ()).toOption.any (fun res => res.state.frameKeys.any (·.context.depth = 1)) = true := by
      decide +kernel
    obtain ⟨res, hres, hframe⟩ := Except.exists_ok_of_any htest
    obtain ⟨key, hkey, hdepth⟩ := List.any_eq_true.mp hframe
    refine ⟨res, hres, ⟨_, .frame hkey, by simpa using hdepth⟩, fun c hc => ?_⟩
    exact (hshown { contextDepth := 1 } .callSite (by decide +kernel) [] false _ _ none () res hres c hc).1

end AbstractFlow
