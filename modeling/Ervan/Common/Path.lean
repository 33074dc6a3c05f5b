import Ervan.Common.Mailbox
import Ervan.Common.ParseLocal

/-!
# Exactly the paths

`mailbox`, `path` and `reverse_path` put the scanners together. A source route that fails takes
the rest of the mailbox with it, because the local part is then looked for in the null span.
-/

namespace Ervan.Parse

open Grammar

/-- A mailbox as it is written. -/
def mailboxText (route loc dom : Bytes) : Bytes := route ++ (loc ++ 64 :: dom)

/-- The result for such a mailbox, with so many bytes left. -/
def mailboxResult (a : Nat) (route loc value dom : Bytes) (left : Nat) : MailboxResult :=
  ⟨⟨⟨a, (mailboxText route loc dom).length⟩, ⟨a + (mailboxText route loc dom).length, left⟩⟩,
    localResult (a + route.length) loc value (dom.length + 1 + left),
    domainResult (a + route.length + loc.length + 1) dom left⟩

/-- The result for a path with such a mailbox. -/
def pathResult (a : Nat) (route loc value dom : Bytes) (left : Nat) : PartResult :=
  ⟨⟨⟨a, (mailboxText route loc dom).length + 2⟩,
      ⟨a + ((mailboxText route loc dom).length + 2), left⟩⟩,
    mailboxResult (a + 1) route loc value dom (left + 1)⟩

/-- The result for the empty path. -/
def emptyResult (a left : Nat) : PartResult := ⟨⟨⟨a, 2⟩, ⟨a + 2, left⟩⟩, .null⟩

/-- The bytes start with a path, and this is the result for it. -/
def IsPath (a : Nat) (bs : Bytes) (r : PartResult) : Prop :=
  ∃ route loc value dom tail, bs = 60 :: (mailboxText route loc dom ++ 62 :: tail) ∧
    Mailbox route loc value dom ∧ r = pathResult a route loc value dom tail.length

/-- The bytes start with a path or with the empty path. -/
def IsReversePath (a : Nat) (bs : Bytes) (r : PartResult) : Prop :=
  IsPath a bs r ∨ ∃ tail, bs = 60 :: 62 :: tail ∧ r = emptyResult a tail.length

section Mailboxes

variable {m : Mem} {a : Nat} {bs route loc v dom y : Bytes} {r : MailboxResult}

theorem mailboxText_append (route loc dom y : Bytes) :
    mailboxText route loc dom ++ y = route ++ (loc ++ 64 :: (dom ++ y)) := by
  simp [mailboxText]

theorem length_mailboxText (route loc dom : Bytes) :
    (mailboxText route loc dom).length = route.length + loc.length + 1 + dom.length := by
  simp only [mailboxText, List.length_append, List.length_cons]
  omega

theorem mailboxResult_eq (h : m.Holds a (route ++ (loc ++ 64 :: (dom ++ y)))) (n : Nat) :
    (MailboxResult.mk
      ⟨(Span.mk a n).upTo ⟨a + route.length + loc.length + 1 + dom.length, y.length⟩,
        ⟨a + route.length + loc.length + 1 + dom.length, y.length⟩⟩
      ⟨⟨⟨a + route.length, loc.length⟩,
        ⟨a + route.length + loc.length, (64 :: (dom ++ y)).length⟩⟩, v⟩
      (domainResult (a + route.length + loc.length + 1) dom y.length)) =
      mailboxResult a route loc v dom y.length := by
  have hend : a + route.length + loc.length + 1 + dom.length =
      a + (mailboxText route loc dom).length := by
    rw [length_mailboxText]
    omega
  have hleft : (64 :: (dom ++ y)).length = dom.length + 1 + y.length := by
    simp only [List.length_cons, List.length_append]
    omega
  rw [← mailboxText_append] at h
  rw [hend, hleft, Span.upTo_append h, mailboxResult, localResult]

/-- What is left of a mailbox behind its source route. -/
theorem mailbox_routed (h : m.Holds a (route ++ bs)) (hnul : m (a + (route ++ bs).length) = nul)
    (haDL : aDL m ⟨a, (route ++ bs).length⟩ = some ⟨.null, ⟨a + route.length, bs.length⟩⟩) :
    mailbox m ⟨a, (route ++ bs).length⟩ = some r ↔ ∃ loc v dom y,
      bs = loc ++ 64 :: (dom ++ y) ∧ LocalRead loc v (64 :: (dom ++ y)) ∧
      loc.length ≤ localPartMaxSize ∧ DomainRead dom y ∧ dom.length ≤ domainMaxSize ∧
      r = mailboxResult a route loc v dom y.length := by
  have hbs := h.append.2
  have hnul' : m (a + route.length + bs.length) = nul := by
    rw [← hnul, List.length_append, Nat.add_assoc]
  constructor
  · intro hr
    simp only [mailbox, haDL] at hr
    cases hlocal : localPart m ⟨a + route.length, bs.length⟩ with
    | none =>
        rw [hlocal] at hr
        cases hr
    | some part =>
        obtain ⟨loc, v, y, rfl, hread, hsize, rfl⟩ := (localPart_eq_some hbs hnul').mp hlocal
        rw [hlocal] at hr
        cases y with
        | nil => cases hr
        | cons c y =>
            have hy := hbs.append.2
            simp only [localResult, starts_cons hy, Span.advance_cons hy] at hr
            by_cases hat : c = 64
            · subst hat
              simp only [beq_self_eq_true, Bool.not_true, Bool.false_eq_true, if_false] at hr
              cases hdomain : domain m ⟨a + route.length + loc.length + 1, y.length⟩ with
              | none =>
                  rw [hdomain] at hr
                  cases hr
              | some part =>
                  obtain ⟨dom, y, rfl, hdom, hdsize, rfl⟩ :=
                    (domain_eq_some hy.cons.2).mp hdomain
                  rw [hdomain] at hr
                  refine ⟨loc, v, dom, y, rfl, hread, hsize, hdom, hdsize, ?_⟩
                  exact (Option.some.inj hr).symm.trans (mailboxResult_eq h _)
            · simp [beq_eq_false_iff_ne.mpr hat] at hr
  · rintro ⟨loc, v, dom, y, rfl, hread, hsize, hdom, hdsize, rfl⟩
    have hlocal := (localPart_eq_some hbs hnul').mpr ⟨loc, v, _, rfl, hread, hsize, rfl⟩
    have hy := hbs.append.2
    have hdomain := (domain_eq_some hy.cons.2).mpr ⟨dom, y, rfl, hdom, hdsize, rfl⟩
    simp only [mailbox, haDL, hlocal, localResult, starts_cons hy, Span.advance_cons hy, hdomain]
    exact congrArg some (mailboxResult_eq h _)

/-- A source route starts with an `@` and no local part does. -/
theorem LocalPart.head (h : LocalPart loc v) (y : Bytes) :
    Until (· == 64) (loc ++ y) := by
  cases h with
  | quoted h => exact until_cons.mpr rfl
  | dotString h =>
      obtain ⟨c, x', rfl, hc⟩ := dotString_head h
      refine until_cons.mpr (beq_eq_false_iff_ne.mpr ?_)
      rintro rfl
      exact absurd hc (by decide)

theorem atDomain_until (h : m.Holds a bs) (ends : Until (· == 64) bs) :
    atDomain m ⟨a, bs.length⟩ = none := by
  rw [atDomain, starts_until h ends]
  rfl

/-- `a_d_l` takes a source route that no further domain follows. -/
theorem aDL_route (h : m.Holds a (route ++ bs)) (hroute : Route route)
    (ends : Until (· == 64) bs) :
    aDL m ⟨a, (route ++ bs).length⟩ = some ⟨.null, ⟨a + route.length, bs.length⟩⟩ := by
  refine (aDL_eq_some h).mpr ?_
  rcases hroute with rfl | ⟨ds, hds, rfl⟩
  · exact Or.inl ⟨atDomain_until h ends, rfl⟩
  · exact Or.inr ⟨ds, _, List.append_assoc _ _ _, hds, by simp [Nat.add_assoc]⟩

theorem exists_route (h : m.Holds a bs) {result : Result}
    (hr : aDL m ⟨a, bs.length⟩ = some result) :
    ∃ route bs', bs = route ++ bs' ∧ Route route ∧
      result = ⟨.null, ⟨a + route.length, bs'.length⟩⟩ := by
  rcases (aDL_eq_some h).mp hr with ⟨-, rfl⟩ | ⟨ds, y, rfl, hds, rfl⟩
  · exact ⟨[], bs, rfl, Or.inl rfl, rfl⟩
  · exact ⟨ds ++ [58], y, by simp, Or.inr ⟨ds, hds, rfl⟩, by simp [Nat.add_assoc]⟩

/-- `mailbox` succeeds on a mailbox, up to a last label that is missing at the end. -/
theorem mailbox_eq_some (h : m.Holds a bs) (hnul : m (a + bs.length) = nul) :
    mailbox m ⟨a, bs.length⟩ = some r ↔ ∃ route loc v dom y,
      bs = mailboxText route loc dom ++ y ∧ Route route ∧ LocalPart loc v ∧
      loc.length ≤ localPartMaxSize ∧ DomainRead dom y ∧ dom.length ≤ domainMaxSize ∧
      r = mailboxResult a route loc v dom y.length := by
  constructor
  · intro hr
    cases hroute : aDL m ⟨a, bs.length⟩ with
    | none => simp [mailbox, hroute, localPart_null] at hr
    | some result =>
        obtain ⟨route, bs, rfl, hgrammar, rfl⟩ := exists_route h hroute
        obtain ⟨loc, v, dom, y, rfl, hloc, hsize, hdom, hdsize, rfl⟩ :=
          (mailbox_routed h hnul hroute).mp hr
        exact ⟨route, loc, v, dom, y, (mailboxText_append _ _ _ _).symm, hgrammar, hloc.localPart,
          hsize, hdom, hdsize, rfl⟩
  · rintro ⟨route, loc, v, dom, y, rfl, hroute, hloc, hsize, hdom, hdsize, rfl⟩
    rw [mailboxText_append] at h hnul ⊢
    exact (mailbox_routed h hnul (aDL_route h hroute (hloc.head _))).mpr
      ⟨loc, v, dom, y, rfl, hloc.read (until_cons.mpr (by decide)), hsize, hdom, hdsize, rfl⟩

end Mailboxes

section Paths

variable {m : Mem} {a : Nat} {bs : Bytes} {r : PartResult}

theorem pathResult_eq {route loc v dom tail : Bytes}
    (h : m.Holds a (60 :: (mailboxText route loc dom ++ 62 :: tail))) (n : Nat) :
    (PartResult.mk
      ⟨(Span.mk a n).upTo ⟨a + 1 + (mailboxText route loc dom).length + 1, tail.length⟩,
        ⟨a + 1 + (mailboxText route loc dom).length + 1, tail.length⟩⟩
      (mailboxResult (a + 1) route loc v dom (62 :: tail).length)) =
      pathResult a route loc v dom tail.length := by
  have hassoc : 60 :: (mailboxText route loc dom ++ 62 :: tail) =
      60 :: (mailboxText route loc dom ++ [62]) ++ tail := by simp
  have hlength : (60 :: (mailboxText route loc dom ++ [62])).length =
      (mailboxText route loc dom).length + 2 := by simp
  have hend : a + 1 + (mailboxText route loc dom).length + 1 =
      a + ((mailboxText route loc dom).length + 2) := by omega
  rw [hassoc] at h
  have hupTo := Span.upTo_append h n tail.length
  rw [hlength] at hupTo
  rw [hend, hupTo, pathResult, List.length_cons]

/-- The mailbox in a path and the bracket behind it. -/
theorem bracketed_eq_some (h : m.Holds a (60 :: bs)) (hnul : m (a + (60 :: bs).length) = nul) :
    (match mailbox m ⟨a + 1, bs.length⟩ with
      | none => none
      | some result =>
          if !starts m result.rest (· == 62) then none
          else some (PartResult.mk
            ⟨(Span.mk a (60 :: bs).length).upTo (result.rest.advance 1), result.rest.advance 1⟩
            result)) = some r ↔ IsPath a (60 :: bs) r := by
  have hnul' : m (a + 1 + bs.length) = nul := by
    rw [← hnul, List.length_cons]
    congr 1
    omega
  constructor
  · intro hr
    cases hmailbox : mailbox m ⟨a + 1, bs.length⟩ with
    | none =>
        rw [hmailbox] at hr
        cases hr
    | some result =>
        obtain ⟨route, loc, v, dom, y, rfl, hroute, hloc, hsize, hdom, hdsize, rfl⟩ :=
          (mailbox_eq_some h.cons.2 hnul').mp hmailbox
        simp only [hmailbox, mailboxResult] at hr
        cases y with
        | nil => cases hr
        | cons c tail =>
            have hy := h.cons.2.append.2
            simp only [starts_cons hy, Span.advance_cons hy] at hr
            by_cases hbracket : c = 62
            · subst hbracket
              simp only [beq_self_eq_true, Bool.not_true, Bool.false_eq_true, if_false] at hr
              refine ⟨route, loc, v, dom, tail, rfl,
                ⟨hroute, hloc, hsize, hdom.domain (by simp), hdsize⟩, ?_⟩
              exact (Option.some.inj hr).symm.trans (pathResult_eq h _)
            · simp [beq_eq_false_iff_ne.mpr hbracket] at hr
  · rintro ⟨route, loc, v, dom, tail, heq, hbox, rfl⟩
    obtain rfl := (List.cons.inj heq).2
    have hdom := hbox.domain.read (y := 62 :: tail) (until_cons.mpr (by decide))
    have hmailbox := (mailbox_eq_some h.cons.2 hnul').mpr ⟨route, loc, v, dom, 62 :: tail, rfl,
      hbox.route, hbox.local_part, hbox.local_size, hdom, hbox.domain_size, rfl⟩
    have hy := h.cons.2.append.2
    simp only [hmailbox]
    rw [mailboxResult]
    simp only [starts_cons hy, Span.advance_cons hy]
    exact congrArg some (pathResult_eq h _)

/-- `path` succeeds on a path and stops behind its closing bracket. -/
theorem path_eq_some (h : m.Holds a bs) (hnul : m (a + bs.length) = nul) :
    path m ⟨a, bs.length⟩ = some r ↔ IsPath a bs r := by
  cases bs with
  | nil => simp [path, IsPath]
  | cons c bs =>
      rw [path, starts_cons h, Span.advance_cons h]
      by_cases hopen : c = 60
      · subst hopen
        exact bracketed_eq_some h hnul
      · simp [hopen, IsPath]

theorem emptyResult_eq {tail : Bytes} (h : m.Holds a (60 :: 62 :: tail)) (n : Nat) :
    (PartResult.mk ⟨(Span.mk a n).upTo ⟨a + 1 + 1, tail.length⟩, ⟨a + 1 + 1, tail.length⟩⟩ .null) =
      emptyResult a tail.length := by
  have hupTo : (Span.mk a n).upTo ⟨a + 1 + 1, tail.length⟩ = ⟨a, 2⟩ :=
    Span.upTo_append (x := [60, 62]) h n tail.length
  rw [hupTo, emptyResult]

theorem not_isPath_empty : ¬ IsPath a (60 :: 62 :: bs) r := by
  rintro ⟨route, loc, v, dom, tail, heq, hbox, -⟩
  have hend := (List.cons.inj heq).2
  rw [mailboxText_append] at hend
  rcases hbox.route with rfl | ⟨ds, hds, rfl⟩
  · cases hbox.local_part with
    | quoted h => cases hend
    | dotString h =>
        obtain ⟨c, x', rfl, hc⟩ := dotString_head h
        obtain rfl := (List.cons.inj hend).1
        exact absurd hc (by decide)
  · obtain ⟨c, x', rfl, hc⟩ := SepBy.head (p := (· == 64)) hds fun x hx => by
      obtain ⟨d, rfl, -⟩ := hx
      exact ⟨64, d, rfl, rfl⟩
    obtain rfl := (List.cons.inj hend).1
    exact absurd hc (by decide)

/-- `reverse_path` takes the empty path as well. -/
theorem reversePath_eq_some (h : m.Holds a bs) (hnul : m (a + bs.length) = nul) :
    reversePath m ⟨a, bs.length⟩ = some r ↔ IsReversePath a bs r := by
  cases bs with
  | nil => simp [reversePath, IsReversePath, IsPath]
  | cons c bs =>
      rw [reversePath, starts_cons h, Span.advance_cons h]
      by_cases hopen : c = 60
      · subst hopen
        simp only [beq_self_eq_true, Bool.not_true, Bool.false_eq_true, if_false]
        cases bs with
        | nil =>
            constructor
            · intro hr
              cases hr
            · rintro (⟨route, loc, v, dom, tail, heq, -⟩ | ⟨tail, heq, -⟩)
              · simp at heq
              · cases heq
        | cons d bs =>
            have hlen : ((d :: bs).length == 0) = false := rfl
            simp only [hlen, Bool.false_eq_true, if_false, h.cons.2.cons.1]
            by_cases hempty : d = 62
            · subst hempty
              simp only [beq_self_eq_true, if_true, Span.advance_cons h.cons.2]
              constructor
              · intro hr
                exact Or.inr ⟨bs, rfl, (Option.some.inj hr).symm.trans (emptyResult_eq h _)⟩
              · rintro (hpath | ⟨tail, heq, rfl⟩)
                · exact absurd hpath not_isPath_empty
                · obtain rfl : bs = tail := by simpa using heq
                  exact congrArg some (emptyResult_eq h _)
            · simp only [beq_eq_false_iff_ne.mpr hempty, Bool.false_eq_true, if_false]
              refine (bracketed_eq_some h hnul).trans ⟨Or.inl, ?_⟩
              rintro (hpath | ⟨tail, heq, -⟩)
              · exact hpath
              · exact absurd (by simpa using (List.cons.inj (List.cons.inj heq).2).1) hempty
      · simp [hopen, IsReversePath, IsPath]

/-- A path as it is written, with its brackets. -/
def PathText (p : Bytes) : Prop :=
  ∃ route loc value dom, p = 60 :: (mailboxText route loc dom ++ [62]) ∧
    Mailbox route loc value dom

/-- A path or the empty path. -/
def ReversePathText (p : Bytes) : Prop := PathText p ∨ p = [60, 62]

theorem isPath_iff {rest : Span} : (∃ r, IsPath a bs r ∧ r.rest = rest) ↔
    ∃ p tail, bs = p ++ tail ∧ PathText p ∧ rest = ⟨a + p.length, tail.length⟩ := by
  constructor
  · rintro ⟨r, ⟨route, loc, v, dom, tail, rfl, hbox, rfl⟩, rfl⟩
    exact ⟨60 :: (mailboxText route loc dom ++ [62]), tail, by simp, ⟨route, loc, v, dom, rfl, hbox⟩,
      by simp [pathResult]⟩
  · rintro ⟨_, tail, rfl, ⟨route, loc, v, dom, rfl, hbox⟩, rfl⟩
    exact ⟨_, ⟨route, loc, v, dom, tail, by simp, hbox, rfl⟩, by simp [pathResult]⟩

theorem isReversePath_iff {rest : Span} : (∃ r, IsReversePath a bs r ∧ r.rest = rest) ↔
    ∃ p tail, bs = p ++ tail ∧ ReversePathText p ∧ rest = ⟨a + p.length, tail.length⟩ := by
  constructor
  · rintro ⟨r, hpath | ⟨tail, rfl, rfl⟩, hrest⟩
    · obtain ⟨p, tail, heq, hp, hr⟩ := isPath_iff.mp ⟨r, hpath, hrest⟩
      exact ⟨p, tail, heq, Or.inl hp, hr⟩
    · exact ⟨[60, 62], tail, rfl, Or.inr rfl, hrest.symm⟩
  · rintro ⟨p, tail, rfl, hp | rfl, rfl⟩
    · obtain ⟨r, hpath, hrest⟩ := isPath_iff.mpr ⟨p, tail, rfl, hp, rfl⟩
      exact ⟨r, Or.inl hpath, hrest⟩
    · exact ⟨emptyResult a tail.length, Or.inr ⟨tail, rfl, rfl⟩, rfl⟩

/-- No path goes on with another. -/
theorem PathText.unique {p p' t t' : Bytes} (hp : PathText p) (hp' : PathText p')
    (heq : p ++ t = p' ++ t') (hsmall : (p ++ t).length < 2 ^ 64) : p = p' ∧ t = t' := by
  have hread : (Mem.ofBytes (p ++ t)).Holds 0 (p ++ t) := .of_bytes hsmall
  have hnul : Mem.ofBytes (p ++ t) (0 + (p ++ t).length) = nul := by simp [Mem.ofBytes]
  obtain ⟨r, hpath, hrest⟩ := isPath_iff (a := 0).mpr ⟨p, t, rfl, hp, rfl⟩
  obtain ⟨r', hpath', hrest'⟩ := isPath_iff (a := 0).mpr ⟨p', t', rfl, hp', rfl⟩
  rw [← heq] at hpath'
  have hr := (path_eq_some hread hnul).mpr hpath
  rw [(path_eq_some hread hnul).mpr hpath'] at hr
  obtain rfl := Option.some.inj hr
  have hlength : t'.length = t.length := congrArg Span.len (hrest'.symm.trans hrest)
  exact List.append_inj' heq hlength.symm

/-- Paths are parsed exactly, with a NUL behind the span as `join` delivers it. -/
theorem path_exact (m : Mem) (sp : Span) (hsmall : sp.start + sp.len < 2 ^ 64)
    (hnul : m (sp.start + sp.len) = nul) :
    (∀ r, path m sp = some r ↔ IsPath sp.start (sp.bytes m) r) ∧
      ∀ r, reversePath m sp = some r ↔ IsReversePath sp.start (sp.bytes m) r := by
  have h : m.Holds sp.start (sp.bytes m) := .of_span hsmall
  have hend : m (sp.start + (sp.bytes m).length) = nul := by rwa [Span.length_bytes]
  constructor
  · intro r
    have hpath := path_eq_some (r := r) h hend
    rwa [← Span.eq_bytes m sp] at hpath
  · intro r
    have hpath := reversePath_eq_some (r := r) h hend
    rwa [← Span.eq_bytes m sp] at hpath

/-- A path with a source route and an escaped quote. -/
theorem path_exact_quoted :
    path (Mem.ofBytes (text "<@r:\"a\\\"@\"@c-.d> x")) ⟨0, 18⟩ =
      some (pathResult 0 (text "@r:") (text "\"a\\\"@\"") (text "a\"@") (text "c-.d") 2) := by
  refine ((path_exact _ _ (by decide) (by decide)).1 _).mpr
    ⟨_, _, _, _, text " x", by decide, ⟨?_, ?_, by decide, ?_, by decide⟩, rfl⟩
  · exact Or.inr ⟨text "@r", .one ⟨text "r", rfl, .one ⟨by decide, .of_all (by decide)⟩, by decide⟩,
      rfl⟩
  · exact .quoted (w := text "a\\\"@") (.text (by decide) (.pair (by decide) (.text (by decide) .nil)))
  · exact .more (x := text "c-") ⟨by decide, .of_all (by decide)⟩
      (.one ⟨by decide, .of_all (by decide)⟩)

end Paths

end Ervan.Parse
