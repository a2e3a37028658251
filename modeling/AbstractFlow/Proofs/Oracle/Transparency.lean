import AbstractFlow.Proofs.Collection.Table
import AbstractFlow.Proofs.Oracle.Keys

/-! # Transparent caches

A steady oracle never fails, and its answers depend only on the version of its results and on the query. A
cache in front of it is transparent for the queries of a run if they are answered as without it, while the
oracle changes between them. That is so exactly if no two of these queries, each with its version, have the
same key.
-/
namespace AbstractFlow

variable {σ τ : Type}

/-- What happens to an oracle: it is asked, or it changes. -/
inductive Event (σ : Type) where
  | ask (q : Query)
  | become (s : σ)

namespace Oracle

/-- The answers of a run, given how the oracle takes on a new state. -/
def transcript (o : Oracle τ) (become : σ → τ → τ) : τ → List (Event σ) → List Outcome
  | _, [] => []
  | t, .ask q :: es => (o.ask q t).1 :: transcript o become (o.ask q t).2 es
  | t, .become s :: es => transcript o become (become s t) es

def plainly (o : Oracle σ) (s : σ) (es : List (Event σ)) : List Outcome := o.transcript (fun s _ => s) s es

/-- The answers through a cache, which does not see that the oracle behind it changes. -/
def cachedly (o : Oracle σ) (c : Cached σ) (es : List (Event σ)) : List Outcome :=
  o.cached.transcript (fun s c => { c with inner := s }) c es

/-- An oracle that never fails and whose answers depend on its version and the query, which they fit. -/
structure Steady (o : Oracle σ) (version : σ → String) (reply : String → Query → Answer) : Prop where
  ask : ∀ q s, (o.ask q s).1 = .answered (reply (version s) q)
  keeps : ∀ q s, version (o.ask q s).2 = version s
  version : ∀ d, reply d .version = .version d
  fits : ∀ d q, q.fit (reply d q) = reply d q

end Oracle

/-- The queries of a run with the versions that they are asked under. A query for the version itself is never
remembered and left out. -/
def Event.asked (version : σ → String) : String → List (Event σ) → List (String × Query)
  | _, [] => []
  | d, .ask .version :: es => asked version d es
  | d, .ask q :: es => (d, q) :: asked version d es
  | _, .become s :: es => asked version (version s) es

theorem Event.asked_ask (version : σ → String) (d : String) {q : Query} (hq : q ≠ .version) (es : List (Event σ)) :
    Event.asked version d (.ask q :: es) = (d, q) :: Event.asked version d es := by
  cases q with
  | version => exact absurd rfl hq
  | _ => rfl

theorem Event.ne_version_of_mem_asked (version : σ → String) {d : String} {es : List (Event σ)}
    {p : String × Query} (hp : p ∈ Event.asked version d es) : p.2 ≠ .version := by
  induction es generalizing d with
  | nil => cases hp
  | cons e es ih =>
    cases e with
    | become s => exact ih hp
    | ask q =>
      by_cases hq : q = .version
      · subst hq
        exact ih hp
      · rw [Event.asked_ask _ _ hq] at hp
        rcases List.mem_cons.mp hp with rfl | hp
        · exact hq
        · exact ih hp

/-- Caches of every size are transparent for all runs of steady oracles with queries of a set. -/
def Cache.Transparent (S : Set (String × Query)) : Prop :=
  ∀ (σ : Type) (o : Oracle σ) (version : σ → String) (reply : String → Query → Answer), o.Steady version reply →
    ∀ (size : Int) (s : σ), 1 ≤ size → ∃ c, Cached.start s size = some c ∧ ∀ es : List (Event σ),
      (∀ p ∈ Event.asked version (version s) es, p ∈ S) → o.cachedly c es = o.plainly s es

/-- Every entry is the answer to a query of the set, under its key. -/
def Cache.Faithful (reply : String → Query → Answer) (S : Set (String × Query)) (c : Cache) : Prop :=
  ∀ e ∈ c.entries, ∃ p ∈ S, e = (Cache.key p.1 p.2, reply p.1 p.2)

namespace Cache

variable {reply : String → Query → Answer} {S : Set (String × Query)} {c c' : Cache} {a : Answer} {d : String}
  {q : Query}

theorem Faithful.get? (h : c.Faithful reply S) (hget : c.get? (key d q) = some (a, c'))
    (hkey : S.InjOn fun p => key p.1 p.2) (hq : (d, q) ∈ S) : a = reply d q ∧ c'.Faithful reply S := by
  obtain ⟨b, hb, hpair⟩ := Option.map_eq_some_iff.mp hget
  obtain ⟨rfl, rfl⟩ := Prod.mk.inj hpair
  have hentry := h _ (Table.mem_of_get? hb)
  refine ⟨?_, List.forall_mem_cons.mpr ⟨hentry, fun e he => h e (Table.mem_of_mem_erase he)⟩⟩
  obtain ⟨p, hp, heq⟩ := hentry
  obtain ⟨hsame, rfl⟩ := Prod.mk.inj heq
  rw [← hkey hq hp hsame]

theorem Faithful.add (h : c.Faithful reply S) (hq : (d, q) ∈ S) :
    (c.add (key d q) (reply d q)).Faithful reply S := by
  intro e he
  rcases List.mem_cons.mp (List.mem_of_mem_take he) with rfl | he
  · exact ⟨(d, q), hq, rfl⟩
  · exact h e (Table.mem_of_mem_erase he)

end Cache

namespace Oracle

variable {o : Oracle σ} {version : σ → String} {reply : String → Query → Answer} {S : Set (String × Query)}
  {c : Cached σ} {q : Query}

theorem Steady.askInner (h : o.Steady version reply) (q : Query) (c : Cached σ) :
    ∃ inner, o.askInner q c = (.answered (reply (version c.inner) q), { c with inner }) ∧
      version inner = version c.inner :=
  ⟨(o.ask q c.inner).2, Prod.ext (h.ask q c.inner) rfl, h.keeps q c.inner⟩

/-- A remembered answer is the one that the oracle would give. -/
theorem Steady.askRemembered (h : o.Steady version reply) (hkey : S.InjOn fun p => Cache.key p.1 p.2)
    (hq : (version c.inner, q) ∈ S) (hc : c.cache.Faithful reply S) :
    ∃ c', o.askRemembered q (version c.inner) c = (.answered (reply (version c.inner) q), c') ∧
      version c'.inner = version c.inner ∧ c'.cache.Faithful reply S := by
  unfold Oracle.askRemembered
  split
  · rename_i a cache hget
    obtain ⟨rfl, hcache⟩ := hc.get? hget hkey hq
    rw [h.fits]
    exact ⟨_, rfl, rfl, hcache⟩
  · obtain ⟨inner, hinner, hversion⟩ := h.askInner q c
    rw [hinner]
    exact ⟨_, rfl, hversion, hc.add hq⟩

theorem Steady.ask_cached (h : o.Steady version reply) (hkey : S.InjOn fun p => Cache.key p.1 p.2)
    (hq : q ≠ .version → (version c.inner, q) ∈ S) (hc : c.cache.Faithful reply S) :
    ∃ c', o.cached.ask q c = (.answered (reply (version c.inner) q), c') ∧
      version c'.inner = version c.inner ∧ c'.cache.Faithful reply S := by
  obtain ⟨inner, hinner, hversion⟩ := h.askInner .version c
  by_cases hasked : q = .version
  · subst hasked
    exact ⟨_, hinner, hversion, hc⟩
  · have hask : o.cached.ask q c = o.askRemembered q (version c.inner) { c with inner } := by
      cases q with
      | version => exact absurd rfl hasked
      | _ =>
        unfold cached
        simp only
        rw [hinner, h.version]
        rfl
    rw [hask, ← hversion]
    exact h.askRemembered (c := { c with inner }) hkey (hversion ▸ hq hasked) hc

/-- The run of the oracle itself and the run through a cache stand at the same version. -/
theorem Steady.cachedly_eq (h : o.Steady version reply) (hkey : S.InjOn fun p => Cache.key p.1 p.2)
    (hc : c.cache.Faithful reply S) {s : σ} (hs : version c.inner = version s) {es : List (Event σ)}
    (hes : ∀ p ∈ Event.asked version (version s) es, p ∈ S) : o.cachedly c es = o.plainly s es := by
  induction es generalizing c s with
  | nil => rfl
  | cons e es ih =>
    cases e with
    | become s' => exact ih (c := { c with inner := s' }) hc rfl hes
    | ask q =>
      have hq : (q ≠ .version → (version s, q) ∈ S) ∧ ∀ p ∈ Event.asked version (version s) es, p ∈ S := by
        by_cases hasked : q = .version
        · subst hasked
          exact ⟨fun hne => absurd rfl hne, hes⟩
        · rw [Event.asked_ask _ _ hasked] at hes
          obtain ⟨hq, hrest⟩ := List.forall_mem_cons.mp hes
          exact ⟨fun _ => hq, hrest⟩
      obtain ⟨c', hask, hversion, hc'⟩ := h.ask_cached (q := q) hkey (hs ▸ hq.1) hc
      have hrest := ih (s := (o.ask q s).2) hc' (by rw [hversion, hs, h.keeps]) (by rw [h.keeps]; exact hq.2)
      calc o.cachedly c (.ask q :: es) = .answered (reply (version c.inner) q) :: o.cachedly c' es := by
            unfold cachedly
            rw [transcript, hask]
        _ = o.plainly s (.ask q :: es) := by
            unfold plainly
            rw [transcript, h.ask, hs, hrest]
            rfl

end Oracle

namespace Cache

theorem faithful_nil (reply : String → Query → Answer) (S : Set (String × Query)) (capacity : Nat) :
    Faithful reply S ⟨capacity, []⟩ := by simp [Faithful]

theorem transparent_of_injOn {S : Set (String × Query)}
    (hkey : {p ∈ S | p.2 ≠ .version}.InjOn fun p => key p.1 p.2) : Transparent S := by
  intro σ o version reply h size s hsize
  refine ⟨⟨s, ⟨size.toNat, []⟩⟩, if_neg (by omega), fun es hes => ?_⟩
  exact h.cachedly_eq hkey (faithful_nil reply _ _) rfl
    fun p hp => ⟨hes p hp, Event.ne_version_of_mem_asked version hp⟩

def telling (d : String) (q : Query) (b : Bool) : Answer :=
  match q with
  | .possibleCallees .. | .successors _ => .functions (if b then [""] else [])
  | .pointsTo .. | .fieldPointsTo .. => .objects (if b then [⟨"", ""⟩] else [])
  | .mayAlias .. | .isSingleton .. => .truth b
  | .version => .version d

/-- An oracle that is in the state of its version and has more to say to one query. -/
def telltale (p : String × Query) : Oracle String where
  ask q d := (.answered (telling d q (decide ((d, q) = p))), d)

theorem steady_telltale (p : String × Query) :
    (telltale p).Steady id fun d q => telling d q (decide ((d, q) = p)) where
  ask _ _ := rfl
  keeps _ _ := rfl
  version _ := rfl
  fits d q := by cases q <;> rfl

theorem ask_telltale (p : String × Query) {q : Query} (hq : q ≠ .version) (c : Cached String) :
    (telltale p).cached.ask q c = (telltale p).askRemembered q c.inner c := by
  cases q with
  | version => exact absurd rfl hq
  | _ => rfl

theorem fit_telling (d : String) {q q' : Query} (hq : q ≠ .version) (hq' : q' ≠ .version) :
    q'.fit (telling d q false) = telling d q' false := by
  cases q' with
  | version => exact absurd rfl hq'
  | _ =>
    cases q with
    | version => exact absurd rfl hq
    | _ => rfl

theorem telling_ne (d d' : String) {q : Query} (hq : q ≠ .version) : telling d q false ≠ telling d' q true := by
  cases q with
  | version => exact absurd rfl hq
  | _ => simp [telling]

/-- Of two queries of one key, the second gets the answer to the first. -/
theorem not_transparent {S : Set (String × Query)} {d d' : String} {q q' : Query} (hq : q ≠ .version)
    (hq' : q' ≠ .version) (hp : (d, q) ∈ S) (hp' : (d', q') ∈ S) (hkey : key d q = key d' q')
    (hne : (d, q) ≠ (d', q')) : ¬ Transparent S := by
  intro h
  have hfirst : (telltale (d', q')).cached.ask q ⟨d, ⟨1, []⟩⟩ =
      (.answered (telling d q false), ⟨d, ⟨1, [(key d q, telling d q false)]⟩⟩) := by
    rw [ask_telltale _ hq]
    simp only [Oracle.askRemembered, Oracle.askInner, Cache.get?, Table.get?, telltale, decide_eq_false hne]
    rfl
  have hsecond : ((telltale (d', q')).cached.ask q' ⟨d', ⟨1, [(key d q, telling d q false)]⟩⟩).1 =
      .answered (telling d q' false) := by
    rw [ask_telltale _ hq', ← fit_telling d hq hq']
    simp [Oracle.askRemembered, Cache.get?, Table.get?, hkey]
  have hasked : ∀ p ∈ Event.asked id d [.ask q, .become d', .ask q'], p ∈ S := by
    rw [Event.asked_ask _ _ hq, Event.asked, Event.asked_ask _ _ hq']
    exact List.forall_mem_cons.mpr ⟨hp, List.forall_mem_singleton.mpr hp'⟩
  obtain ⟨c, hstart, hall⟩ := h String (telltale (d', q')) id _ (steady_telltale _) 1 d le_rfl
  obtain rfl : c = ⟨d, ⟨1, []⟩⟩ := (Option.some.inj hstart).symm
  have hrun := hall _ hasked
  simp only [Oracle.cachedly, Oracle.plainly, Oracle.transcript, hfirst, hsecond] at hrun
  have hlast : Outcome.answered (telling d q' false) = .answered (telling d' q' true) := by
    simpa [telltale] using (List.cons.inj hrun).2
  exact telling_ne d d' hq' (Outcome.answered.inj hlast)

/-- A cache is transparent exactly where its keys tell queries and their versions apart, as those of plain
queries do. -/
theorem transparent_iff_injOn_key (S : Set (String × Query)) :
    (Transparent S ↔ {p ∈ S | p.2 ≠ .version}.InjOn fun p => key p.1 p.2) ∧
      (S ⊆ plainQueries → Transparent S) := by
  refine ⟨⟨fun h => ?_, transparent_of_injOn⟩, fun hplain => ?_⟩
  · rintro ⟨d, q⟩ ⟨hp, hq⟩ ⟨d', q'⟩ ⟨hp', hq'⟩ hkey
    by_contra hne
    exact not_transparent hq hq' hp hp' hkey hne h
  · exact transparent_of_injOn (injOn_key_plainQueries.mono fun p hp => hplain hp.1)

/-- A key does not tell which colon ends a scope, and a version may end like the beginning of a query, so
that an answer given under an earlier version is remembered. -/
theorem not_transparent_univ :
    ¬ Transparent {("1", .pointsTo ⟨"m", "x:y"⟩ ""), ("1", .pointsTo ⟨"m:x", "y"⟩ "")} ∧
      ¬ Transparent {("1", .pointsTo ⟨"m", "y_PointsTo(n:x"⟩ ""), ("1_PointsTo(m:y", .pointsTo ⟨"n", "x"⟩ "")} ∧
      ¬ Transparent Set.univ := by
  have hsame : key "1" (.pointsTo ⟨"m", "x:y"⟩ "") = key "1" (.pointsTo ⟨"m:x", "y"⟩ "") := by
    simp [key, Query.text, Query.method, Query.arguments, ScopedName.text]
  have hlater : key "1" (.pointsTo ⟨"m", "y_PointsTo(n:x"⟩ "") = key "1_PointsTo(m:y" (.pointsTo ⟨"n", "x"⟩ "") := by
    simp [key, Query.text, Query.method, Query.arguments, ScopedName.text]
  refine ⟨?_, ?_, ?_⟩
  · exact not_transparent (by simp) (by simp) (by simp) (by simp) hsame (by simp)
  · exact not_transparent (by simp) (by simp) (by simp) (by simp) hlater (by simp)
  · exact not_transparent (by simp) (by simp) (by simp) (by simp) hsame (by simp)

end Cache

end AbstractFlow
