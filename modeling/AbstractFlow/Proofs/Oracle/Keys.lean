import AbstractFlow.Oracle.Cache
import Mathlib

/-! # Keys of plain queries

A key is a text in which the version, the method and the arguments of a query run on. It can be read back
where the parts do not contain the characters that stand between them: no parenthesis in a version, no
commas in names, no colon in a scope, and no angle brackets around the type of a heap object.
-/
namespace AbstractFlow

def Lacks (cs : List Char) (s : String) : Prop := ∀ c ∈ cs, c ∉ s.toList

theorem append_cons_inj_of_first {c : Char} {xs xs' ys ys' : List Char} (hx : c ∉ xs) (hx' : c ∉ xs')
    (h : xs ++ c :: ys = xs' ++ c :: ys') : xs = xs' ∧ ys = ys' := by
  induction xs generalizing xs' with
  | nil =>
    cases xs' with
    | nil => exact ⟨rfl, (List.cons.inj h).2⟩
    | cons x' xs' => exact absurd ((List.cons.inj h).1 ▸ List.mem_cons_self) hx'
  | cons x xs ih =>
    cases xs' with
    | nil => exact absurd ((List.cons.inj h).1 ▸ List.mem_cons_self) hx
    | cons x' xs' =>
      obtain ⟨hhead, htail⟩ := List.cons.inj h
      obtain ⟨hxs, hys⟩ := ih (mt (List.mem_cons_of_mem x) hx) (mt (List.mem_cons_of_mem x') hx') htail
      exact ⟨by rw [hhead, hxs], hys⟩

theorem append_cons_inj_of_last {c : Char} {xs xs' ys ys' : List Char} (hy : c ∉ ys) (hy' : c ∉ ys')
    (h : xs ++ c :: ys = xs' ++ c :: ys') : xs = xs' ∧ ys = ys' := by
  have hreverse : ys.reverse ++ c :: xs.reverse = ys'.reverse ++ c :: xs'.reverse := by
    simpa using congrArg List.reverse h
  obtain ⟨hys, hxs⟩ := append_cons_inj_of_first (by simpa using hy) (by simpa using hy') hreverse
  exact ⟨List.reverse_inj.mp hxs, List.reverse_inj.mp hys⟩

theorem not_mem_toString {c : Char} (hdigit : c.isDigit = false) (hsign : c ≠ '-') (i : Int) :
    c ∉ (toString i).toList := by
  have hdigits : ∀ n : Nat, c ∉ n.repr.toList := by
    intro n hn
    rw [Nat.repr_eq_ofList_toDigits, String.toList_ofList] at hn
    rw [Nat.isDigit_of_mem_toDigits (b := 10) (by decide) (by decide) hn] at hdigit
    cases hdigit
  cases i with
  | ofNat n => exact hdigits n
  | negSucc n =>
    intro h
    have hsigned : c ∈ '-' :: (n + 1).repr.toList := by simpa [toString, Int.repr] using h
    rcases List.mem_cons.mp hsigned with hc | hn
    · exact hsign hc
    · exact hdigits _ hn

theorem CallSite.toList_text (s : CallSite) :
    s.text.toList = s.function.toList ++ '#' :: (toString s.index).toList := by
  simp [text]

theorem CallSite.text_inj {s t : CallSite} (h : s.text = t.text) : s = t := by
  have hsharp : ∀ i : Int, '#' ∉ (toString i).toList := not_mem_toString (by decide) (by decide)
  have hlist := String.toList_inj.mpr h
  rw [toList_text, toList_text] at hlist
  obtain ⟨hfunction, hindex⟩ := append_cons_inj_of_last (hsharp _) (hsharp _) hlist
  obtain ⟨function, index⟩ := s
  obtain ⟨function', index'⟩ := t
  exact congrArg₂ mk (String.toList_inj.mp hfunction) (Int.repr_injective (String.toList_inj.mp hindex))

/-- Neither a comma, nor a colon in the scope, nor the mark of a heap object. -/
def ScopedName.Plain (v : ScopedName) : Prop := Lacks [',', ':', '<'] v.scope ∧ Lacks [',', '<'] v.name

theorem ScopedName.toList_text (v : ScopedName) : v.text.toList = v.scope.toList ++ ':' :: v.name.toList := by
  simp [text]

theorem ScopedName.Plain.lacks {v : ScopedName} (h : v.Plain) : Lacks [',', '<'] v.text := by
  intro c hc hmem
  rw [toList_text] at hmem
  rcases List.mem_append.mp hmem with hscope | hname
  · exact h.1 c (by simp at hc ⊢; tauto) hscope
  · rcases List.mem_cons.mp hname with rfl | hname
    · simp at hc
    · exact h.2 c hc hname

theorem ScopedName.text_inj {v w : ScopedName} (hv : v.Plain) (hw : w.Plain) (h : v.text = w.text) : v = w := by
  have hlist := String.toList_inj.mpr h
  rw [toList_text, toList_text] at hlist
  obtain ⟨hscope, hname⟩ := append_cons_inj_of_first (hv.1 ':' (by simp)) (hw.1 ':' (by simp)) hlist
  obtain ⟨scope, name⟩ := v
  obtain ⟨scope', name'⟩ := w
  exact congrArg₂ mk (String.toList_inj.mp hscope) (String.toList_inj.mp hname)

/-- A heap object with a site, whose type can be found in its text. -/
def HeapObject.Plain (o : HeapObject) : Prop :=
  o.site ≠ "" ∧ Lacks [',', '<'] o.site ∧ Lacks [',', '>'] o.type

theorem HeapObject.toList_text (o : HeapObject) :
    o.text.toList = o.site.toList ++ '<' :: (o.type.toList ++ ['>']) := by
  simp [text]

theorem HeapObject.Plain.lacks {o : HeapObject} (h : o.Plain) : Lacks ['<'] o.site ∧ Lacks ['>'] o.type :=
  ⟨fun c hc => h.2.1 c (by simp_all), fun c hc => h.2.2 c (by simp_all)⟩

/-- What follows the text of a heap object can be told from it. -/
theorem HeapObject.text_append_inj {o p : HeapObject} (ho : Lacks ['<'] o.site ∧ Lacks ['>'] o.type)
    (hp : Lacks ['<'] p.site ∧ Lacks ['>'] p.type) {s t : String} (h : o.text ++ s = p.text ++ t) :
    o = p ∧ s = t := by
  have hlist := String.toList_inj.mpr h
  simp only [String.toList_append, toList_text, List.append_assoc, List.cons_append, List.nil_append] at hlist
  obtain ⟨hsite, hrest⟩ := append_cons_inj_of_first (ho.1 '<' (by simp)) (hp.1 '<' (by simp)) hlist
  obtain ⟨htype, hafter⟩ := append_cons_inj_of_first (ho.2 '>' (by simp)) (hp.2 '>' (by simp)) hrest
  obtain ⟨site, type⟩ := o
  obtain ⟨site', type'⟩ := p
  exact ⟨congrArg₂ mk (String.toList_inj.mp hsite) (String.toList_inj.mp htype), String.toList_inj.mp hafter⟩

theorem HeapObject.text_inj {o p : HeapObject} (ho : o.Plain) (hp : p.Plain) (h : o.text = p.text) : o = p :=
  (text_append_inj ho.lacks hp.lacks (congrArg (· ++ "") h)).1

/-- A named attribute other than the question mark, a key that is quoted as it is, or no name at all. -/
def Field.Plain : Field → Prop
  | .attribute name => Lacks [','] name ∧ name ≠ "?"
  | .value (some k) => Lacks [','] k ∧ Text.quote k = "\"" ++ k ++ "\""
  | _ => True

/-- The characters of the text: a name after a dot, or a star, an integer or a quotation in brackets. -/
def Field.chars : Field → List Char
  | .attribute name => '.' :: name.toList
  | .element (some i) => '[' :: ((toString i).toList ++ [']'])
  | .element none => '[' :: (['*'] ++ [']'])
  | .value (some k) => '[' :: ('"' :: (k.toList ++ ['"']) ++ [']'])
  | .value none => ['\x7b', '*', '\x7d']
  | .unknown => '.' :: "?".toList

theorem Field.Plain.toList_text {f : Field} (h : f.Plain) : f.text.toList = f.chars := by
  rcases f with name | ⟨_ | i⟩ | ⟨_ | k⟩ | _ <;> simp [text, chars]
  have hquote : Text.quote k = "\"" ++ k ++ "\"" := h.2
  simp [hquote]

theorem Field.text_inj {f g : Field} (hf : f.Plain) (hg : g.Plain) (h : f.text = g.text) : f = g := by
  have hstar : ∀ i : Int, (toString i).toList ≠ ['*'] :=
    fun i hi => not_mem_toString (by decide) (by decide) i (hi ▸ List.mem_singleton_self '*')
  have hquote : ∀ (i : Int) (cs : List Char), (toString i).toList ≠ '"' :: cs :=
    fun i cs hi => not_mem_toString (by decide) (by decide) i (hi ▸ List.mem_cons_self)
  have hlist := String.toList_inj.mpr h
  rw [hf.toList_text, hg.toList_text] at hlist
  rcases f with name | ⟨_ | i⟩ | ⟨_ | k⟩ | _ <;> rcases g with name' | ⟨_ | j⟩ | ⟨_ | k'⟩ | _ <;>
    simp only [chars, List.cons.injEq, Char.reduceEq, false_and, true_and, List.append_cancel_right_eq,
      String.toList_inj, hstar, (hstar _).symm, hquote, (hquote _ _).symm] at hlist
  case attribute.attribute => rw [hlist]
  case attribute.unknown => exact absurd hlist hf.2
  case unknown.attribute => exact absurd hlist.symm hg.2
  case element.some.element.some => rw [Int.repr_injective hlist]
  case value.some.value.some => rw [hlist]
  all_goals rfl

theorem Field.Plain.lacks_comma {f : Field} (h : f.Plain) : ',' ∉ f.text.toList := by
  rw [h.toList_text]
  rcases f with name | ⟨_ | i⟩ | ⟨_ | k⟩ | _
  · simpa [chars] using h.1 ',' (by simp)
  · decide
  · simpa [chars] using not_mem_toString (c := ',') (by decide) (by decide) i
  · decide
  · simpa [chars] using h.1 ',' (by simp)
  · decide

def Target.Plain : Target → Prop
  | .variable v => v.Plain
  | .field o f => o.Plain ∧ f.Plain
  | .object o => o.Plain
  | .nothing => True

theorem HeapObject.Plain.lacks_comma {o : HeapObject} (h : o.Plain) : ',' ∉ o.text.toList := by
  rw [toList_text]
  simp [h.2.1 ',' (by simp), h.2.2 ',' (by simp)]

theorem Target.Plain.lacks_comma {t : Target} (h : t.Plain) : ',' ∉ t.text.toList := by
  rcases t with v | ⟨o, f⟩ | o | _
  · exact ScopedName.Plain.lacks h ',' (by simp)
  · simpa [text] using ⟨h.1.lacks_comma, h.2.lacks_comma⟩
  · exact HeapObject.Plain.lacks_comma h
  · decide

/-- Every target but a variable begins with the text of a heap object; no target begins with one without a
site. -/
theorem Target.Plain.cases {t : Target} (h : t.Plain) :
    (∃ v, t = .variable v ∧ v.Plain) ∨ ∃ (o : HeapObject) (rest : String), t.text = o.text ++ rest ∧
      (Lacks ['<'] o.site ∧ Lacks ['>'] o.type) ∧
      ((o.site = "" ∧ t = .nothing) ∨ (o.site ≠ "" ∧ rest = "" ∧ t = .object o) ∨
        (o.site ≠ "" ∧ ∃ f : Field, f.Plain ∧ rest = f.text ∧ t = .field o f)) := by
  rcases t with v | ⟨o, f⟩ | o | _
  · exact Or.inl ⟨v, rfl, h⟩
  · exact Or.inr ⟨o, f.text, rfl, h.1.lacks, Or.inr (Or.inr ⟨h.1.1, f, h.2, rfl, rfl⟩)⟩
  · exact Or.inr ⟨o, "", by simp [text], HeapObject.Plain.lacks h, Or.inr (Or.inl ⟨h.1, rfl, rfl⟩)⟩
  · exact Or.inr ⟨⟨"", "nil target"⟩, "", by simp [text, HeapObject.text], by simp [Lacks], Or.inl ⟨rfl, rfl⟩⟩

theorem Target.text_inj {t u : Target} (ht : t.Plain) (hu : u.Plain) (h : t.text = u.text) : t = u := by
  have hmark : ∀ (v : ScopedName) (o : HeapObject) (rest : String), v.Plain → v.text ≠ o.text ++ rest := by
    intro v o rest hv heq
    apply hv.lacks '<' (by simp)
    rw [heq, String.toList_append, HeapObject.toList_text]
    simp
  have hfield : ∀ f : Field, f.Plain → f.text ≠ "" := by
    intro f hf hempty
    have hchars := hf.toList_text
    rw [hempty] at hchars
    rcases f with name | ⟨_ | i⟩ | ⟨_ | k⟩ | _ <;> simp [Field.chars] at hchars
  -- The mark of a heap object tells variables apart from all others; behind the object its field is read.
  rcases ht.cases with ⟨v, rfl, hv⟩ | ⟨o, rest, htext, ho, hcase⟩ <;>
    rcases hu.cases with ⟨w, rfl, hw⟩ | ⟨p, rest', htext', hp, hcase'⟩
  · rw [ScopedName.text_inj hv hw h]
  · exact absurd (h.trans htext') (hmark v p rest' hv)
  · exact absurd (h.symm.trans htext) (hmark w o rest hw)
  · obtain ⟨rfl, rfl⟩ := HeapObject.text_append_inj ho hp (htext.symm.trans (h.trans htext'))
    rcases hcase with ⟨hsite, rfl⟩ | ⟨hsite, hrest, rfl⟩ | ⟨hsite, f, hf, hrest, rfl⟩ <;>
      rcases hcase' with ⟨hsite', rfl⟩ | ⟨hsite', hrest', rfl⟩ | ⟨hsite', g, hg, hrest', rfl⟩
    · rfl
    · exact absurd hsite hsite'
    · exact absurd hsite hsite'
    · exact absurd hsite' hsite
    · rfl
    · exact absurd (hrest'.symm.trans hrest) (hfield g hg)
    · exact absurd hsite' hsite
    · exact absurd (hrest.symm.trans hrest') (hfield f hf)
    · rw [Field.text_inj hf hg (hrest.symm.trans hrest')]

/-- A query in whose arguments the last alone may have commas. -/
def Query.Plain : Query → Prop
  | .possibleCallees site _ => Lacks [','] site.function
  | .pointsTo v _ => v.Plain
  | .fieldPointsTo o f => o.Plain ∧ f.Plain
  | .mayAlias a b _ => a.Plain ∧ b.Plain
  | .isSingleton t _ => t.Plain
  | .successors _ => True
  | .version => True

theorem CallSite.lacks_comma {s : CallSite} (h : Lacks [','] s.function) : ',' ∉ s.text.toList := by
  have hindex := not_mem_toString (c := ',') (by decide) (by decide) s.index
  rw [toList_text]
  simpa [h ',' (by simp)] using hindex

theorem Query.Plain.lacks_comma {q : Query} (h : q.Plain) : ∀ a ∈ q.arguments.dropLast, ',' ∉ a.toList := by
  have hname : ∀ {v : ScopedName}, v.Plain → ',' ∉ v.text.toList := fun hv => hv.lacks ',' (by simp)
  cases q with
  | possibleCallees site c => simpa [arguments] using CallSite.lacks_comma h
  | pointsTo v c => simpa [arguments] using hname h
  | fieldPointsTo o f => simpa [arguments] using h.1.lacks_comma
  | mayAlias a b c => simpa [arguments] using ⟨hname h.1, hname h.2⟩
  | isSingleton t c => simpa [arguments] using Target.Plain.lacks_comma h
  | successors f => simp [arguments]
  | version => simp [arguments]

theorem intercalate_inj {as bs : List String} (hlength : as.length = bs.length)
    (ha : ∀ a ∈ as.dropLast, ',' ∉ a.toList) (hb : ∀ b ∈ bs.dropLast, ',' ∉ b.toList)
    (h : ", ".intercalate as = ", ".intercalate bs) : as = bs := by
  induction as generalizing bs with
  | nil => exact (List.length_eq_zero_iff.mp hlength.symm).symm
  | cons a as ih =>
    obtain _ | ⟨b, bs⟩ := bs
    · cases hlength
    obtain _ | ⟨a', as⟩ := as
    · obtain rfl : bs = [] := List.length_eq_zero_iff.mp (by simpa using hlength.symm)
      simpa using h
    · obtain _ | ⟨b', bs⟩ := bs
      · simp at hlength
      have hlist : a.toList ++ ',' :: ' ' :: (", ".intercalate (a' :: as)).toList =
          b.toList ++ ',' :: ' ' :: (", ".intercalate (b' :: bs)).toList := by
        simpa using String.toList_inj.mpr h
      obtain ⟨hhead, htail⟩ := append_cons_inj_of_first (ha a (by simp)) (hb b (by simp)) hlist
      have hrest := ih (by simpa using hlength) (fun x hx => ha x (by simp [hx])) (fun x hx => hb x (by simp [hx]))
        (String.toList_inj.mp (List.cons.inj htail).2)
      rw [String.toList_inj.mp hhead, hrest]

theorem Query.length_arguments {q r : Query} (h : q.method = r.method) :
    q.arguments.length = r.arguments.length := by
  cases q <;> cases r <;> simp [method, arguments] at h ⊢

theorem Query.Plain.inj {q r : Query} (hq : q.Plain) (hr : r.Plain) (hmethod : q.method = r.method)
    (harguments : q.arguments = r.arguments) : q = r := by
  cases q <;> cases r <;> simp [method] at hmethod <;>
    simp only [arguments, List.cons.injEq, and_true] at harguments
  case possibleCallees => rw [CallSite.text_inj harguments.1, harguments.2]
  case pointsTo => rw [ScopedName.text_inj hq hr harguments.1, harguments.2]
  case fieldPointsTo => rw [HeapObject.text_inj hq.1 hr.1 harguments.1, Field.text_inj hq.2 hr.2 harguments.2]
  case mayAlias =>
    rw [ScopedName.text_inj hq.1 hr.1 harguments.1, ScopedName.text_inj hq.2 hr.2 harguments.2.1, harguments.2.2]
  case isSingleton => rw [Target.text_inj hq hr harguments.1, harguments.2]
  case successors => rw [harguments]
  case version => rfl

theorem Cache.toList_key (d : String) (q : Query) : (key d q).toList =
    (d.toList ++ '_' :: q.method.toList) ++ '(' :: ((", ".intercalate q.arguments).toList ++ [')']) := by
  simp [key, Query.text]

theorem Query.lacks_method (q : Query) : Lacks ['_', '('] q.method := by
  cases q <;> simp [Lacks, method]

/-- Plain queries under versions without parentheses. -/
def Cache.plainQueries : Set (String × Query) := {p | Lacks ['('] p.1 ∧ p.2.Plain}

theorem Cache.injOn_key_plainQueries : plainQueries.InjOn fun p => key p.1 p.2 := by
  rintro ⟨d, q⟩ ⟨hd, hq⟩ ⟨e, r⟩ ⟨he, hr⟩ h
  have hopen : ∀ {d : String} (q : Query), Lacks ['('] d → '(' ∉ d.toList ++ '_' :: q.method.toList := by
    intro d q hd
    simp [hd '(' (by simp), q.lacks_method '(' (by simp)]
  have hlist := String.toList_inj.mpr h
  rw [toList_key, toList_key] at hlist
  obtain ⟨hbefore, hafter⟩ := append_cons_inj_of_first (hopen q hd) (hopen r he) hlist
  obtain ⟨hversion, hmethod⟩ :=
    append_cons_inj_of_last (q.lacks_method '_' (by simp)) (r.lacks_method '_' (by simp)) hbefore
  have hmethod := String.toList_inj.mp hmethod
  have harguments := intercalate_inj (Query.length_arguments hmethod) hq.lacks_comma hr.lacks_comma
    (String.toList_inj.mp (List.append_cancel_right hafter))
  exact Prod.ext (String.toList_inj.mp hversion) (hq.inj hr hmethod harguments)

end AbstractFlow
