import AbstractFlow.Proofs.Analysis.Accounting
import AbstractFlow.Proofs.Analysis.Outset
import Mathlib.Data.Set.Finite.Lattice

/-! # What an analysis can be about

A program has finitely many statements. They name finitely many functions and classes, and instances come from
their call sites. If an oracle names finitely many objects, then everything an analysis is ever about is one of
finitely many things. So there are finitely many receivers, contexts of a bounded depth and calls.
-/
namespace AbstractFlow

theorem List.finite_bounded {α : Type} {S : Set α} (hS : S.Finite) (n : Nat) :
    {l : List α | l.length ≤ n ∧ ∀ x ∈ l, x ∈ S}.Finite := by
  induction n with
  | zero =>
    refine (Set.finite_singleton []).subset fun l hl => ?_
    exact List.eq_nil_of_length_eq_zero (Nat.le_zero.mp hl.1)
  | succ n ih =>
    refine ((Set.finite_singleton []).union (hS.image2 List.cons ih)).subset fun l hl => ?_
    cases l with
    | nil => exact Or.inl rfl
    | cons x l =>
      obtain ⟨hlength, hmem⟩ := hl
      obtain ⟨hx, hl⟩ := List.forall_mem_cons.mp hmem
      exact Or.inr ⟨x, hx, l, ⟨Nat.le_of_succ_le_succ hlength, hl⟩, rfl⟩

def Stmt.definedName : Stmt → String
  | .functionDef _ name | .classDef _ name _ => name
  | _ => ""

namespace Object.Subject

/-- What stands for a thing in the name of a receiver. -/
def label : Subject → String
  | .unknown => ""
  | .number t => t.name
  | .string => "str"
  | .none => "NoneType"
  | .container t => t.name
  | .function name => "func:" ++ name
  | .classObject name => "class:" ++ name
  | .instanceObject className site => "instance:" ++ className ++ "@" ++ site
  | .external .function module name => "extfunc:" ++ module ++ "." ++ name
  | .external .classObject module name => "extclass:" ++ module ++ "." ++ name
  | .external .instanceObject module name => "extinstance:" ++ module ++ "." ++ name

end Object.Subject

theorem Object.label_subject (o : Object) :
    o.subject.label = if o.identity ≠ "" then o.identity else o.typeName := by
  rcases o with _ | (_ | _ | _) | _ | _ | _ | _ | ⟨_ | _ | _, _, _, _⟩ <;>
    simp [Object.subject, Object.Subject.label, Object.identity, Object.key, Object.typeName, Constant.typeName]

theorem Value.receiverId_eq (v : Value) :
    v.receiverId = "|".intercalate (Names.sort ((v.map fun o => o.subject.label).filter (· ≠ ""))) := by
  simp only [Value.receiverId, Object.label_subject]

namespace Analyzer

section Universe

variable (a : Analyzer) (objects : Set HeapObject)

/-- The names of scopes, of what is defined and of the types that an oracle names. -/
inductive IsName : String → Prop
  | none : IsName ""
  | scope {name : String} {scope : Scope} (h : a.scope? name = some scope) : IsName name
  | parent {name : String} {scope : Scope} (h : a.scope? name = some scope) : IsName scope.parent
  | defined {item : WorkItem} {stmt : Stmt} (h : a.stmt? item = some stmt) : IsName stmt.definedName
  | type {o : HeapObject} (h : o ∈ objects) : IsName o.type

/-- The sites where objects come from. -/
inductive IsSite : String → Prop
  | none : IsSite ""
  | call {item : WorkItem} {stmt : Stmt} (h : a.stmt? item = some stmt) :
    IsSite (callSiteText item.function item.index)
  | site {o : HeapObject} (h : o ∈ objects) : IsSite o.site

/-- What a program and an oracle's objects can be about. -/
def Occurs : Object.Subject → Prop
  | .function name | .classObject name => a.IsName objects name
  | .instanceObject className site => a.IsName objects className ∧ a.IsSite objects site
  | .external _ module name => ∃ o ∈ objects, ∃ q, (q = o.site ∨ q = o.type) ∧ (module, name) = splitQualified q
  | _ => True

/-- What a context can remember of a call. -/
inductive IsText : String → Prop
  | site {text : String} (h : a.IsSite objects text) : IsText text
  | receiver {v : Value} (h : v.Consists (a.Occurs objects)) : IsText v.receiverId

def contexts : Set Context :=
  {c | c.elems.length ≤ a.options.contextDepth.toNat ∧ ∀ x ∈ c.elems, a.IsText objects x}

end Universe

variable {a : Analyzer} {objects : Set HeapObject}

theorem common_occurs : Object.Subject.Common (a.Occurs objects) :=
  ⟨trivial, fun _ => trivial, trivial, trivial, fun _ => trivial⟩

theorem IsName.className {name : String} (h : a.IsName objects name) :
    ClassName (Value.Consists (a.Occurs objects)) name where
  classes _ := Value.consists_bare ⟨Dict.sorted_nil, Dict.sorted_nil⟩ rfl h
  instances := Value.consists_bare Dict.sorted_nil rfl ⟨h, .none⟩

/-- The values of an analysis consist of what the program and the oracle's objects can be about. -/
theorem admits_occurs (ha : a.Distinct) (objects : Set HeapObject) :
    a.Admits (Value.Consists (a.Occurs objects)) (· ∈ objects) where
  toClosed := Value.closed_consists common_occurs
  functions h := Value.consists_bare Dict.sorted_nil rfl (IsName.defined h)
  functionScopes {name scope} h _ := by
    have hname : a.IsName objects scope.name := ha.named _ (Table.mem_of_get? h) ▸ .scope h
    exact Value.consists_bare Dict.sorted_nil rfl hname
  classes h := (IsName.defined h).className
  classScopes h _ := (IsName.scope h).className
  nothing := Value.consists_bare ⟨Dict.sorted_nil, Dict.sorted_nil⟩ rfl IsName.none
  instances {item c cls} h hcls := by
    have hname : a.IsName objects cls.name := (Value.consists_singleton.mp hcls).2.1
    exact Value.consists_bare Dict.sorted_nil rfl ⟨hname, .call h⟩
  parents h := Value.consists_bare Dict.sorted_nil rfl ⟨.parent h, .none⟩
  externals he := Value.consists_bare Dict.sorted_nil rfl (Value.consists_singleton.mp he).2.1
  answers {x} hx := by
    have hexternal : ∀ kind q, (q = x.site ∨ q = x.type) →
        Value.Consists (a.Occurs objects) [externalObject kind q] := fun kind q hq =>
      Value.consists_bare (o := externalObject kind q) Dict.sorted_nil rfl ⟨x, hx, q, hq, rfl⟩
    exact ⟨Value.consists_bare Dict.sorted_nil rfl ⟨.type hx, .site hx⟩, fun kind =>
      ⟨hexternal kind _ (Or.inl rfl), hexternal kind _ (Or.inr rfl)⟩⟩

theorem exists_body {item : WorkItem} {stmt : Stmt} (h : a.stmt? item = some stmt) :
    ∃ (scope : Scope) (i : Nat), a.scope? item.function = some scope ∧ item.index = i ∧
      scope.body[i]? = some stmt := by
  unfold stmt? at h
  split at h
  · rename_i i stmts hindex hbody
    obtain ⟨scope, hscope, rfl⟩ := Option.map_eq_some_iff.mp hbody
    exact ⟨scope, i, hscope, hindex, h⟩
  · cases h

theorem finite_stmts (a : Analyzer) : {item | ∃ stmt, a.stmt? item = some stmt}.Finite := by
  refine (List.finite_toSet (a.scopes.flatMap fun e =>
    (List.range e.2.body.length).map fun i : Nat => ⟨e.1, i⟩)).subset ?_
  rintro ⟨function, index⟩ ⟨stmt, h⟩
  obtain ⟨scope, i, hscope, rfl, hstmt⟩ := exists_body h
  refine List.mem_flatMap.mpr ⟨(function, scope), Table.mem_of_get? hscope, List.mem_map.mpr ⟨i, ?_, rfl⟩⟩
  exact List.mem_range.mpr (List.getElem?_eq_some_iff.mp hstmt).1

theorem finite_names (a : Analyzer) (h : objects.Finite) : {x | a.IsName objects x}.Finite := by
  have hscopes : {e | e ∈ a.scopes}.Finite := List.finite_toSet _
  have hdefined := a.finite_stmts.image fun item => ((a.stmt? item).map Stmt.definedName).getD ""
  refine (((((Set.finite_singleton "").union (hscopes.image (·.1))).union (hscopes.image (·.2.parent))).union
    hdefined).union (h.image (·.type))).subset ?_
  rintro x hx
  cases hx with
  | none => simp
  | scope h => exact Or.inl (Or.inl (Or.inl (Or.inr ⟨_, Table.mem_of_get? h, rfl⟩)))
  | parent h => exact Or.inl (Or.inl (Or.inr ⟨_, Table.mem_of_get? h, rfl⟩))
  | @defined item stmt h => exact Or.inl (Or.inr ⟨item, ⟨stmt, h⟩, by simp [h]⟩)
  | type h => exact Or.inr ⟨_, h, rfl⟩

theorem finite_sites (a : Analyzer) (h : objects.Finite) : {x | a.IsSite objects x}.Finite := by
  have hcalls := a.finite_stmts.image fun item => callSiteText item.function item.index
  refine (((Set.finite_singleton "").union hcalls).union (h.image (·.site))).subset ?_
  rintro x hx
  cases hx with
  | none => simp
  | call h => exact Or.inl (Or.inr ⟨_, ⟨_, h⟩, rfl⟩)
  | site h => exact Or.inr ⟨_, h, rfl⟩

theorem finite_occurs (a : Analyzer) (h : objects.Finite) : {s | a.Occurs objects s}.Finite := by
  have hnames := a.finite_names h
  have hplain : Set.Finite {Object.Subject.unknown, .string, .none, .number .int, .number .float, .number .bool,
    .container .list, .container .tuple, .container .set, .container .dict} := Set.toFinite _
  have hkinds : Set.Finite {ExternalKind.function, .classObject, .instanceObject} := Set.toFinite _
  have hqualified := ((h.image (·.site)).union (h.image (·.type))).image splitQualified
  refine ((((hplain.union (hnames.image .function)).union (hnames.image .classObject)).union
    (hnames.image2 .instanceObject (a.finite_sites h))).union
    (hkinds.image2 (fun kind q => .external kind q.1 q.2) hqualified)).subset ?_
  rintro s hs
  cases s with
  | function name => exact Or.inl (Or.inl (Or.inl (Or.inr ⟨name, hs, rfl⟩)))
  | classObject name => exact Or.inl (Or.inl (Or.inr ⟨name, hs, rfl⟩))
  | instanceObject className site => exact Or.inl (Or.inr ⟨className, hs.1, site, hs.2, rfl⟩)
  | external kind module name =>
    obtain ⟨o, ho, q, hq, hsplit⟩ := hs
    refine Or.inr ⟨kind, by cases kind <;> simp, (module, name), ⟨q, ?_, hsplit.symm⟩, rfl⟩
    rcases hq with rfl | rfl
    · exact Or.inl ⟨o, ho, rfl⟩
    · exact Or.inr ⟨o, ho, rfl⟩
  | number t => cases t <;> simp
  | container t => cases t <;> simp
  | _ => simp

/-- There are finitely many receivers, because a value has a bounded number of objects. -/
theorem finite_texts (a : Analyzer) (h : objects.Finite) : {x | a.IsText objects x}.Finite := by
  have hlists := List.finite_bounded ((a.finite_occurs h).image Object.Subject.label) Value.objectLimit
  refine ((a.finite_sites h).union
    (hlists.image fun l => "|".intercalate (Names.sort (l.filter (· ≠ ""))))).subset ?_
  rintro x hx
  cases hx with
  | site h => exact Or.inl h
  | @receiver v hv =>
    refine Or.inr ⟨v.map fun o => o.subject.label, ⟨?_, List.forall_mem_map.mpr fun o ho => ?_⟩,
      (v.receiverId_eq).symm⟩
    · rw [List.length_map]
      exact (Value.everywhere_iff.mp hv).1.1.few
    · exact ⟨o.subject, (Value.consists_singleton.mp (hv.object ho)).2.1, rfl⟩

theorem finite_contexts (a : Analyzer) (h : objects.Finite) : (a.contexts objects).Finite := by
  refine ((List.finite_bounded (a.finite_texts h) a.options.contextDepth.toNat).image Context.mk).subset ?_
  exact fun c hc => ⟨c.elems, hc, rfl⟩

theorem root_mem_contexts : Context.root ∈ a.contexts objects := ⟨Nat.zero_le _, by simp [Context.root]⟩

/-- Contexts are derived from one another. -/
theorem derive_mem_contexts {c d : Context} {policy : Policy} {site receiver : String} (hc : c ∈ a.contexts objects)
    (hsite : a.IsText objects site) (hreceiver : a.IsText objects receiver)
    (h : c.derive policy a.options.contextDepth site receiver = .ok d) : d ∈ a.contexts objects := by
  have hpush : ∀ x, a.IsText objects x → c.push x a.options.contextDepth.toNat ∈ a.contexts objects := by
    intro x hx
    unfold Context.push
    split
    · exact hc
    · refine ⟨?_, fun y hy => ?_⟩
      · simp only [List.length_drop]
        omega
      · rcases List.mem_append.mp (List.mem_of_mem_drop hy) with hy | hy
        · exact hc.2 y hy
        · rw [List.mem_singleton.mp hy]
          exact hx
  have hselected : a.IsText objects (Context.selected policy site receiver) := by
    have hnone : a.IsText objects "" := .site .none
    unfold Context.selected
    split
    all_goals first | assumption | (split <;> assumption)
  unfold Context.derive at h
  split at h <;> cases h
  · exact root_mem_contexts
  · exact root_mem_contexts
  · exact hpush _ hselected

end Analyzer

/-- What tells a call apart from all others. -/
def Edge.ends (e : Edge) : WorkItem × String × Context × Context :=
  (⟨e.caller, e.index⟩, e.callee, e.callerContext, e.calleeContext)

theorem Edge.same_of_ends {e f : Edge} (h : e.ends = f.ends) : e.same f = true := by
  simp only [Edge.ends, Prod.mk.injEq, WorkItem.mk.injEq] at h
  obtain ⟨⟨hcaller, hindex⟩, hcallee, hsource, htarget⟩ := h
  simp [Edge.same, Edge.identity, hcaller, hindex, hcallee, hsource, htarget]

namespace Analyzer

variable {a : Analyzer} {objects : Set HeapObject}

def calls (a : Analyzer) (objects : Set HeapObject) : Set (WorkItem × String × Context × Context) :=
  {item | ∃ stmt, a.stmt? item = some stmt} ×ˢ {x | a.IsName objects x} ×ˢ a.contexts objects ×ˢ a.contexts objects

theorem finite_calls (a : Analyzer) (h : objects.Finite) : (a.calls objects).Finite :=
  a.finite_stmts.prod ((a.finite_names h).prod ((a.finite_contexts h).prod (a.finite_contexts h)))

end Analyzer

/-- Calls that are different and confined to a finite set are of a bounded number. -/
theorem CallGraph.Distinct.size_le {g : CallGraph} (hg : g.Distinct) {S : Set (WorkItem × String × Context × Context)}
    (hS : S.Finite) (h : ∀ e ∈ g.edges, e.ends ∈ S) : g.edges.length ≤ hS.toFinset.card := by
  have hnodup : (g.edges.map Edge.ends).Nodup := by
    refine List.pairwise_map.mpr (hg.imp fun {e f} hne heq => ?_)
    rw [Edge.same_of_ends heq.symm] at hne
    cases hne
  classical
  rw [← List.length_map Edge.ends, ← List.toFinset_card_of_nodup hnodup]
  refine Finset.card_le_card fun x hx => ?_
  obtain ⟨e, he, rfl⟩ := List.mem_map.mp (List.mem_toFinset.mp hx)
  exact hS.mem_toFinset.mpr (h e he)

end AbstractFlow
