import Ervan.Common.Overrun

/-!
# Spans that no parser leaves

A mailbox is a source route, a local part and a domain, and each of them has its own way out of
the span. All parsers stay inside exactly the spans without one of these.
-/

namespace Ervan.Parse

open Grammar

/-- A quoted string open behind a backslash, or a domain that is too long behind a local part. -/
def TailLeaves (bs : Bytes) : Prop :=
  OpenEscape bs ∨ ∃ loc value bs', LocalPart loc value ∧ loc.length ≤ localPartMaxSize ∧
    bs = loc ++ 64 :: bs' ∧ DomainOverrun bs'

/-- It comes behind a source route, or the route is too long itself. -/
def MailboxLeaves (bs : Bytes) : Prop :=
  RouteOverrun bs ∨ ∃ route bs', Route route ∧ bs = route ++ bs' ∧ TailLeaves bs'

def PathLeaves (bs : Bytes) : Prop := ∃ bs', bs = 60 :: bs' ∧ MailboxLeaves bs'

section Mailboxes

variable {m m' : Mem} {a : Nat} {bs route loc v y : Bytes}

/-- Where the local part does not leave the span, the byte behind it does not matter. -/
theorem localPart_inside_eq_some (h : m.Holds a bs) (seen : Seen m m' ⟨a, bs.length⟩)
    (hno : ¬ OpenEscape bs) {r : BufferedResult} :
    localPart m' ⟨a, bs.length⟩ = some r ↔ ∃ x v y, bs = x ++ y ∧ LocalRead x v y ∧
      x.length ≤ localPartMaxSize ∧ r = localResult a x v y.length := by
  let ended : Mem := fun i => if i = a + bs.length then nul else m i
  have seen' : Seen m ended ⟨a, bs.length⟩ := by
    refine ⟨fun i hlo hhi => ?_, seen.len⟩
    exact (if_neg (Nat.ne_of_lt hhi)).symm
  have hend : ended (a + bs.length) = nul := if_pos rfl
  have hrun := ((localPart_guarded h seen).2 hno).1
  rw [((localPart_guarded h seen').2 hno).1] at hrun
  rw [← Option.some.inj hrun]
  exact localPart_eq_some (seen'.holds h) hend

theorem TailLeaves.until (h : TailLeaves bs) : Until (· == 64) bs := by
  rcases h with ⟨bs', -, rfl⟩ | ⟨loc, v, bs', hloc, -, rfl, -⟩
  · exact until_cons.mpr rfl
  · exact hloc.head _

/-- The source route is the one that `a_d_l` takes. -/
theorem mailboxLeaves_routed (h : m.Holds a (route ++ bs)) (hroute : Route route)
    (hno : ¬ RouteOverrun (route ++ bs))
    (haDL : aDL m ⟨a, (route ++ bs).length⟩ = some ⟨.null, ⟨a + route.length, bs.length⟩⟩) :
    MailboxLeaves (route ++ bs) ↔ TailLeaves bs := by
  refine (or_iff_right hno).trans ⟨?_, fun htail => ⟨route, bs, hroute, rfl, htail⟩⟩
  rintro ⟨route', bs', hroute', heq, htail⟩
  have haDL' := aDL_route (heq ▸ h) hroute' htail.until
  rw [← heq, haDL] at haDL'
  have hlength : bs.length = bs'.length := congrArg (Span.len ∘ Result.rest) (Option.some.inj haDL')
  exact (List.append_inj' heq hlength).2 ▸ htail

theorem not_mailboxLeaves (h : m.Holds a bs) (hno : ¬ RouteOverrun bs)
    (haDL : aDL m ⟨a, bs.length⟩ = none) : ¬ MailboxLeaves bs := by
  rintro (hover | ⟨route, bs', hroute, rfl, htail⟩)
  · exact hno hover
  · rw [aDL_route h hroute htail.until] at haDL
    cases haDL

/-- The domain behind the local part that is read. -/
theorem tailLeaves_read (h : m.Holds a (loc ++ y)) (hlen : (loc ++ y).length < 2 ^ 64)
    (hno : ¬ OpenEscape (loc ++ y)) (hread : LocalRead loc v y)
    (size : loc.length ≤ localPartMaxSize) : TailLeaves (loc ++ y) ↔ AtOverrun y := by
  have seen : Seen m m ⟨a, (loc ++ y).length⟩ := ⟨fun _ _ _ => rfl, hlen⟩
  have hlocal := (localPart_inside_eq_some h seen hno).mpr ⟨loc, v, y, rfl, hread, size, rfl⟩
  refine (or_iff_right hno).trans ⟨?_, ?_⟩
  · rintro ⟨loc', v', bs', hloc', size', heq, hdomain⟩
    have hread' : LocalRead loc' v' (64 :: bs') := hloc'.read (until_cons.mpr (by decide))
    have hlocal' := (localPart_inside_eq_some h seen hno).mpr
      ⟨loc', v', _, heq, hread', size', rfl⟩
    rw [hlocal] at hlocal'
    have hlength : y.length = (64 :: bs').length :=
      congrArg (fun r => r.rest.len) (Option.some.inj hlocal')
    exact ⟨bs', (List.append_inj' heq hlength).2, hdomain⟩
  · rintro ⟨bs', rfl, hdomain⟩
    exact ⟨loc, v, bs', hread.localPart, size, rfl, hdomain⟩

/-- What follows the local part. -/
theorem atMailbox_guarded (h : m.Holds a bs) (seen : Seen m m' ⟨a, bs.length⟩) (base : Span)
    (part : BufferedResult) :
    Unless (AtOverrun bs) ⟨a, bs.length⟩ (·.rest)
      (do
        if !(← Guarded.starts m ⟨a, bs.length⟩ (· == 64)) then return none
        else
          match ← Guarded.domain m (← Guarded.advance ⟨a, bs.length⟩ 1) with
          | none => return none
          | some domain => return some ⟨⟨base.upTo domain.rest, domain.rest⟩, part, domain⟩)
      (if !starts m' ⟨a, bs.length⟩ (· == 64) then none
        else
          match domain m' ((Span.mk a bs.length).advance 1) with
          | none => none
          | some domain =>
              some (MailboxResult.mk ⟨base.upTo domain.rest, domain.rest⟩ part domain)) := by
  have hdomain := atDomain_guarded h seen
  simp only [Guarded.atDomain, atDomain, seen.starts, Option.bind_eq_bind,
    Option.bind_some] at hdomain ⊢
  cases hs : starts m' ⟨a, bs.length⟩ (· == 64) with
  | false =>
      refine .of_not (fun hover => ?_) (.malformed _)
      have hnone := hdomain.1 hover
      rw [hs] at hnone
      cases hnone
  | true =>
      simp only [hs, Bool.not_true, Bool.false_eq_true, if_false] at hdomain ⊢
      obtain ⟨hadvance, -⟩ := seen.next hs
      rw [hadvance, Option.bind_some] at hdomain ⊢
      refine ⟨fun hover => ?_, fun hno => ?_⟩
      · rw [hdomain.1 hover, Option.bind_none]
      · obtain ⟨hrun, hsuffix⟩ := hdomain.2 hno
        rw [hrun, Option.bind_some]
        cases hparsed : domain m' ((Span.mk a bs.length).advance 1) with
        | none => exact .malformed _
        | some dom => exact .ended (hsuffix dom hparsed)

theorem mailbox_guarded (h : m.Holds a bs) (seen : Seen m m' ⟨a, bs.length⟩) :
    Unless (MailboxLeaves bs) ⟨a, bs.length⟩ (·.rest) (Guarded.mailbox m ⟨a, bs.length⟩)
      (mailbox m' ⟨a, bs.length⟩) := by
  have h' := seen.holds h
  have hroute := aDL_guarded h seen
  by_cases hover : RouteOverrun bs
  · refine ⟨fun _ => ?_, fun hno => absurd (Or.inl hover) hno⟩
    simp only [Guarded.mailbox, hroute.1 hover, Option.bind_eq_bind, Option.bind_none]
  · obtain ⟨hrun, hsuffix⟩ := hroute.2 hover
    simp only [Guarded.mailbox, mailbox, hrun, Option.bind_eq_bind, Option.bind_some]
    cases haDL : aDL m' ⟨a, bs.length⟩ with
    | none =>
        refine .of_not (not_mailboxLeaves h' hover haDL) ?_
        simp only [Option.map_none, Option.getD_none, localPart_null]
        exact .malformed _
    | some result =>
        have hrest : SuffixOf _ _ := hsuffix _ haDL
        obtain ⟨route, bs, rfl, hroute, rfl⟩ := exists_route h' haDL
        have seen₁ := seen.suffix hrest
        have hlocal := localPart_guarded h.append.2 seen₁
        refine .of_iff (mailboxLeaves_routed h' hroute hover haDL) ?_
        simp only [Option.map_some, Option.getD_some]
        by_cases hopen : OpenEscape bs
        · refine ⟨fun _ => ?_, fun hno => absurd (Or.inl hopen) hno⟩
          rw [hlocal.1 hopen, Option.bind_none]
        · obtain ⟨hrun', hpart⟩ := hlocal.2 hopen
          rw [hrun', Option.bind_some]
          cases hparsed : localPart m' ⟨a + route.length, bs.length⟩ with
          | none =>
              refine .of_not ?_ (.malformed _)
              rintro (hescape | ⟨loc, v, bs', hloc, size, rfl, -⟩)
              · exact hopen hescape
              · have hread : LocalRead loc v (64 :: bs') := hloc.read (until_cons.mpr (by decide))
                rw [(localPart_inside_eq_some h.append.2 seen₁ hopen).mpr
                  ⟨loc, v, _, rfl, hread, size, rfl⟩] at hparsed
                cases hparsed
          | some part =>
              have hpart : SuffixOf _ _ := hrest.trans (hpart part hparsed)
              obtain ⟨loc, v, y, rfl, hread, size, rfl⟩ :=
                (localPart_inside_eq_some h.append.2 seen₁ hopen).mp hparsed
              refine .of_iff (tailLeaves_read h.append.2 seen₁.len hopen hread size) ?_
              exact .later hpart (atMailbox_guarded h.append.2.append.2 (seen.suffix hpart) _ _)

end Mailboxes

section Paths

variable {m m' : Mem} {a : Nat} {bs : Bytes}

/-- The mailbox of a path and the bracket behind it. -/
theorem bracketed_guarded (h : m.Holds a bs) (seen : Seen m m' ⟨a, bs.length⟩) (base : Span) :
    Unless (MailboxLeaves bs) ⟨a, bs.length⟩ (·.rest) (Guarded.bracketed m base ⟨a, bs.length⟩)
      (match mailbox m' ⟨a, bs.length⟩ with
      | none => none
      | some result =>
          if !starts m' result.rest (· == 62) then none
          else some ⟨⟨base.upTo (result.rest.advance 1), result.rest.advance 1⟩, result⟩) := by
  have hmailbox := mailbox_guarded h seen
  refine ⟨fun hleaves => ?_, fun hno => ?_⟩
  · simp only [Guarded.bracketed, hmailbox.1 hleaves, Option.bind_eq_bind, Option.bind_none]
  · obtain ⟨hrun, hsuffix⟩ := hmailbox.2 hno
    simp only [Guarded.bracketed, hrun, Option.bind_eq_bind, Option.bind_some]
    cases hparsed : mailbox m' ⟨a, bs.length⟩ with
    | none => exact .malformed _
    | some result =>
        have hrest : SuffixOf ⟨a, bs.length⟩ result.rest := hsuffix result hparsed
        have seen₁ := seen.suffix hrest
        simp only [seen₁.starts, Option.bind_some]
        cases hs : starts m' result.rest (· == 62) with
        | false => exact .malformed _
        | true =>
            obtain ⟨hadvance, hnext⟩ := seen₁.next hs
            simp only [Bool.not_true, Bool.false_eq_true, if_false, hadvance, Option.bind_some]
            exact .ended (hrest.trans hnext)

theorem path_guarded (h : m.Holds a bs) (seen : Seen m m' ⟨a, bs.length⟩) :
    Unless (PathLeaves bs) ⟨a, bs.length⟩ (·.rest) (Guarded.path m ⟨a, bs.length⟩)
      (path m' ⟨a, bs.length⟩) := by
  have h' := seen.holds h
  cases bs with
  | nil => exact .of_not not_leads_nil (.malformed _)
  | cons c bs =>
      refine .of_iff leads_cons ?_
      simp only [Guarded.path, path, seen.starts, starts_cons h', Span.advance_cons h',
        Option.bind_eq_bind, Option.bind_some]
      by_cases hopen : c = 60
      · subst hopen
        obtain ⟨seen₁, hnext⟩ := seen.tail h
        simp only [beq_self_eq_true, Bool.not_true, Bool.false_eq_true, if_false,
          (seen.cons h).2, Option.bind_some, true_and]
        exact .later hnext (bracketed_guarded h.cons.2 seen₁ _)
      · simp only [beq_eq_false_iff_ne.mpr hopen, Bool.not_false, if_true]
        exact .of_not (fun hleaves => hopen hleaves.1) (.malformed _)

/-- Neither the end of the span nor the bracket of an empty path. -/
theorem MailboxLeaves.head (h : MailboxLeaves bs) : ∃ c bs', bs = c :: bs' ∧ c ≠ 62 := by
  rcases h with hover | ⟨route, bs', hroute, rfl, htail⟩
  · cases hover with
    | here domain => exact ⟨64, _, rfl, by decide⟩
    | later domain size rest => exact ⟨64, _, rfl, by decide⟩
  · rcases hroute with rfl | ⟨ds, hds, rfl⟩
    · rcases htail with ⟨bs'', -, rfl⟩ | ⟨loc, v, bs'', hloc, -, rfl, -⟩
      · exact ⟨34, bs'', rfl, by decide⟩
      · cases hloc with
        | quoted h => exact ⟨34, _, rfl, by decide⟩
        | dotString h =>
            obtain ⟨c, x', rfl, hc⟩ := dotString_head h
            refine ⟨c, _, rfl, ?_⟩
            rintro rfl
            exact absurd hc (by decide)
    · obtain ⟨c, x', rfl, hc⟩ := SepBy.head (p := (· == 64)) hds fun x hx => by
        obtain ⟨d, rfl, -⟩ := hx
        exact ⟨64, d, rfl, rfl⟩
      refine ⟨c, _, rfl, ?_⟩
      rintro rfl
      exact absurd hc (by decide)

theorem reversePath_guarded (h : m.Holds a bs) (seen : Seen m m' ⟨a, bs.length⟩) :
    Unless (PathLeaves bs) ⟨a, bs.length⟩ (·.rest) (Guarded.reversePath m ⟨a, bs.length⟩)
      (reversePath m' ⟨a, bs.length⟩) := by
  have h' := seen.holds h
  cases bs with
  | nil => exact .of_not not_leads_nil (.malformed _)
  | cons c bs =>
      refine .of_iff leads_cons ?_
      simp only [Guarded.reversePath, reversePath, seen.starts, starts_cons h',
        Span.advance_cons h', Option.bind_eq_bind, Option.bind_some]
      by_cases hopen : c = 60
      · subst hopen
        obtain ⟨seen₁, hnext⟩ := seen.tail h
        simp only [beq_self_eq_true, Bool.not_true, Bool.false_eq_true, if_false,
          (seen.cons h).2, Option.bind_some, true_and]
        refine .later hnext ?_
        cases bs with
        | nil =>
            refine .of_not (fun hleaves => ?_) (.malformed _)
            obtain ⟨c, bs', heq, -⟩ := hleaves.head
            cases heq
        | cons d bs =>
            have hlen : ((d :: bs).length == 0) = false := rfl
            simp only [hlen, Bool.false_eq_true, if_false, (seen₁.cons h.cons.2).1,
              h'.cons.2.cons.1, Option.bind_some]
            by_cases hempty : d = 62
            · subst hempty
              obtain ⟨seen₂, hnext₂⟩ := seen₁.tail h.cons.2
              simp only [beq_self_eq_true, if_true, (seen₁.cons h.cons.2).2,
                Span.advance_cons h'.cons.2, Option.bind_some]
              refine .of_not (fun hleaves => ?_) (.ended hnext₂)
              obtain ⟨c, bs', heq, hne⟩ := hleaves.head
              exact hne (List.cons.inj heq).1.symm
            · simp only [beq_eq_false_iff_ne.mpr hempty, Bool.false_eq_true, if_false]
              exact bracketed_guarded h.cons.2 seen₁ _
      · simp only [beq_eq_false_iff_ne.mpr hopen, Bool.not_false, if_true]
        exact .of_not (fun hleaves => hopen hleaves.1) (.malformed _)

end Paths

/-- The run stays inside the span. What it returns is what the parser returns on any memory with
these bytes in the span, and the rest is a suffix of the span. -/
def Stays {R : Type} (run : Mem → Span → Option (Option R)) (parser : Mem → Span → Option R)
    (rest : R → Span) (m : Mem) (sp : Span) : Prop :=
  ∃ parsed, run m sp = some parsed ∧ (∀ m', sp.bytes m' = sp.bytes m → parser m' sp = parsed) ∧
    ∀ r, parsed = some r → SuffixOf sp (rest r)

/-- All the parsers do. -/
structure StaysInside (m : Mem) (sp : Span) : Prop where
  atom : Stays Guarded.atom atom Result.rest m sp
  quotedString : Stays Guarded.quotedString quotedString Result.rest m sp
  localPart : Stays Guarded.localPart localPart (·.rest) m sp
  domain : Stays Guarded.domain domain (·.rest) m sp
  atDomain : Stays Guarded.atDomain atDomain (·.rest) m sp
  aDL : Stays Guarded.aDL aDL Result.rest m sp
  mailbox : Stays Guarded.mailbox mailbox (·.rest) m sp
  path : Stays Guarded.path path (·.rest) m sp
  reversePath : Stays Guarded.reversePath reversePath (·.rest) m sp
  esmtpKeyword : Stays Guarded.esmtpKeyword esmtpKeyword Result.rest m sp
  esmtpValue : Stays Guarded.esmtpValue esmtpValue Result.rest m sp
  esmtpParam : Stays Guarded.esmtpParam esmtpParam (·.rest) m sp

/-- One of the parsers leaves the span. -/
inductive Leaves (bs : Bytes) : Prop
  | mailbox (h : MailboxLeaves bs)
  | path (h : PathLeaves bs)
  | domain (h : DomainOverrun bs)
  | value (h : ValueOverrun bs)
  | param (h : ParamOverrun bs)

section Stay

variable {m m' : Mem} {sp : Span}

theorem seen_of_bytes (hlen : sp.len < 2 ^ 64) (h : sp.bytes m' = sp.bytes m) : Seen m m' sp := by
  refine ⟨fun i hlo hhi => ?_, hlen⟩
  have hbyte := congrArg (·[i - sp.start]?) h
  have hindex : i - sp.start < sp.len := by omega
  simp only [Span.bytes, Mem.read, List.getElem?_map, List.getElem?_range hindex,
    Option.map_some, Option.some.injEq, Nat.add_sub_cancel' hlo] at hbyte
  exact hbyte.symm

theorem Unless.stays {R : Type} {run : Mem → Span → Option (Option R)}
    {parser : Mem → Span → Option R} {rest : R → Span} {bad : Prop} (hlen : sp.len < 2 ^ 64)
    (h : ∀ m', Seen m m' sp → Unless bad sp rest (run m sp) (parser m' sp)) :
    Stays run parser rest m sp ↔ ¬ bad := by
  have hself := h m ⟨fun _ _ _ => rfl, hlen⟩
  constructor
  · rintro ⟨parsed, hrun, -⟩ hbad
    rw [hself.1 hbad] at hrun
    cases hrun
  · intro hno
    obtain ⟨hrun, hsuffix⟩ := hself.2 hno
    refine ⟨_, hrun, fun m' hbytes => ?_, hsuffix⟩
    have hsame := ((h m' (seen_of_bytes hlen hbytes)).2 hno).1
    exact Option.some.inj (hsame.symm.trans hrun)

theorem RouteOverrun.length {bs : Bytes} (h : RouteOverrun bs) : 2 ^ 31 < bs.length := by
  induction h with
  | here domain =>
      have := domain.length
      rw [List.length_cons]
      omega
  | later domain size rest ih =>
      simp only [List.length_cons, List.length_append]
      omega

/-- A mailbox of any sensible size that is left ends in a backslash. -/
theorem MailboxLeaves.backslash {bs : Bytes} (h : MailboxLeaves bs) (hlen : bs.length ≤ 2 ^ 31) :
    bs.getLast? = some 92 := by
  rcases h with hover | ⟨route, bs', -, rfl, hopen | ⟨loc, v, bs'', -, -, rfl, hdomain⟩⟩
  · exact absurd hover.length (Nat.not_lt.mpr hlen)
  · obtain ⟨w, ⟨x, v, -, rfl⟩, rfl⟩ := hopen
    rw [← List.cons_append, ← List.append_assoc, List.getLast?_concat]
  · have := hdomain.length
    simp only [List.length_append, List.length_cons] at hlen
    omega

theorem Leaves.backslash {bs : Bytes} (h : Leaves bs) (hlen : bs.length ≤ 2 ^ 31) :
    bs.getLast? = some 92 := by
  have hrun : ∀ {p q : UInt8 → Bool} {bs : Bytes}, RunOverrun p q bs → 2 ^ 31 < bs.length := by
    rintro p q _ ⟨c, bs', rfl, -, hpast⟩
    have := hpast.length
    rw [List.length_cons]
    omega
  cases h with
  | mailbox h => exact h.backslash hlen
  | path h =>
      obtain ⟨bs', rfl, hleaves⟩ := h
      rw [List.length_cons] at hlen
      obtain ⟨c, bs'', rfl, -⟩ := hleaves.head
      rw [List.getLast?_cons_cons]
      exact hleaves.backslash (by omega)
  | domain h =>
      have := h.length
      omega
  | value h => exact absurd (hrun h) (Nat.not_lt.mpr hlen)
  | param h =>
      rcases h with hkey | ⟨c, x, bs', rfl, -, -, hvalue⟩
      · exact absurd (hrun hkey) (Nat.not_lt.mpr hlen)
      · have := hrun hvalue
        simp only [List.length_append, List.length_cons] at hlen
        omega

/-- The parsers stay inside a span if and only if its bytes do not lead out of it. -/
theorem staysInside_iff (m : Mem) (sp : Span) (hsmall : sp.start + sp.len < 2 ^ 64) :
    StaysInside m sp ↔ ¬ Leaves (sp.bytes m) := by
  have h : m.Holds sp.start (sp.bytes m) := .of_span hsmall
  obtain ⟨a, n⟩ := sp
  have hlength : n = (Span.bytes m ⟨a, n⟩).length := (Span.length_bytes m ⟨a, n⟩).symm
  generalize Span.bytes m ⟨a, n⟩ = bs at h hlength ⊢
  subst hlength
  have hlen : (Span.mk a bs.length).len < 2 ^ 64 := Nat.lt_of_le_of_lt (Nat.le_add_left _ a) h.small
  have hatom := Unless.stays hlen fun m' (seen : Seen m m' _) =>
    .of_not not_false (atom_inside seen)
  have hquoted := Unless.stays hlen fun m' seen => quotedString_guarded h seen
  have hlocal := Unless.stays hlen fun m' seen => localPart_guarded h seen
  have hdomain := Unless.stays hlen fun m' seen => domain_guarded h seen
  have hat := Unless.stays hlen fun m' seen => atDomain_guarded h seen
  have hroute := Unless.stays hlen fun m' seen => aDL_guarded h seen
  have hmailbox := Unless.stays hlen fun m' seen => mailbox_guarded h seen
  have hpath := Unless.stays hlen fun m' seen => path_guarded h seen
  have hreverse := Unless.stays hlen fun m' seen => reversePath_guarded h seen
  have hkeyword := Unless.stays hlen fun m' seen => esmtpKeyword_guarded h seen
  have hvalue := Unless.stays hlen fun m' seen => esmtpValue_guarded h seen
  have hparam := Unless.stays hlen fun m' seen => esmtpParam_guarded h seen
  constructor
  · intro hstays hleaves
    cases hleaves with
    | mailbox hleaves => exact hmailbox.mp hstays.mailbox hleaves
    | path hleaves => exact hpath.mp hstays.path hleaves
    | domain hover => exact hdomain.mp hstays.domain hover
    | value hover => exact hvalue.mp hstays.esmtpValue hover
    | param hover => exact hparam.mp hstays.esmtpParam hover
  · intro hno
    have hescape : ¬ OpenEscape bs := fun hopen =>
      hno (.mailbox (.inr ⟨[], bs, .inl rfl, rfl, .inl hopen⟩))
    have hover : ¬ RouteOverrun bs := fun hover => hno (.mailbox (.inl hover))
    have hfirst : ¬ AtOverrun bs := by
      rintro ⟨bs', rfl, hlong⟩
      exact hover (.here hlong)
    exact {
      atom := hatom.mpr not_false
      quotedString := hquoted.mpr hescape
      localPart := hlocal.mpr hescape
      domain := hdomain.mpr fun hover => hno (.domain hover)
      atDomain := hat.mpr hfirst
      aDL := hroute.mpr hover
      mailbox := hmailbox.mpr fun hleaves => hno (.mailbox hleaves)
      path := hpath.mpr fun hleaves => hno (.path hleaves)
      reversePath := hreverse.mpr fun hleaves => hno (.path hleaves)
      esmtpKeyword := hkeyword.mpr fun hover => hno (.param (.inl hover))
      esmtpValue := hvalue.mpr fun hover => hno (.value hover)
      esmtpParam := hparam.mpr fun hover => hno (.param hover) }

/-- A path in its span. -/
theorem staysInside_path : StaysInside (Mem.ofBytes (text "<\"a\\\"\"@b>x")) ⟨0, 9⟩ := by
  refine (staysInside_iff _ _ (by decide)).mpr fun hleaves => ?_
  have hlast := hleaves.backslash (by rw [Span.length_bytes]; decide)
  revert hlast
  decide

/-- Behind the backslash at the end of the span stands a byte that can be escaped. -/
theorem not_staysInside_backslash :
    ¬ ∀ (m : Mem) (sp : Span), sp.start + sp.len < 2 ^ 64 → StaysInside m sp := by
  intro hall
  obtain ⟨parsed, hrun, -⟩ := (hall (Mem.ofBytes (text "\"\\a\"")) ⟨0, 2⟩ (by decide)).quotedString
  have hnone : Guarded.quotedString (Mem.ofBytes (text "\"\\a\"")) ⟨0, 2⟩ = none := by decide
  rw [hnone] at hrun
  cases hrun

end Stay

end Ervan.Parse
