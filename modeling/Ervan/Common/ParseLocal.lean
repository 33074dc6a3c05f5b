import Ervan.Common.Parse

/-!
# What the parsers depend on

No parser recognises a NUL or a CR. One that is given a span therefore looks at its
bytes up to the first of them and no further: at the end of a line, where `join`
puts a NUL, or before that. Its result is the same in any two memories that agree so
far, and what it leaves over is a suffix of the span that starts no later.
-/

namespace Ervan.Parse

/-- The offset `hi` lies in the span or right behind it, and the span's numbers are
values of `size_t`. -/
structure Reaches (sp : Span) (hi : Nat) : Prop where
  start_le : sp.start ≤ hi
  reach : hi ≤ sp.start + sp.len
  small : hi < 2 ^ 64
  small_len : sp.len < 2 ^ 64

/-- Two memories that agree from `lo` up to the NUL or CR at `hi`. -/
structure Agree (m m' : Mem) (lo hi : Nat) : Prop where
  same : ∀ i, lo ≤ i → i ≤ hi → m i = m' i
  stop : m hi = nul ∨ m hi = cr

/-- Nothing behind the first NUL or CR has any influence on `p`, and its result
satisfies `post`. -/
def Local {R : Type} (post : Span → Nat → R → Prop) (p : Mem → Span → Option R) : Prop :=
  ∀ ⦃m m' : Mem⦄ ⦃sp : Span⦄ ⦃hi : Nat⦄, Reaches sp hi → Agree m m' sp.start hi →
    p m sp = p m' sp ∧ ∀ r, p m sp = some r → post sp hi r

/-- What is left over is a suffix of the span. -/
structure Suffix (sp : Span) (hi : Nat) (rest : Span) : Prop where
  reaches : Reaches rest hi
  start_le : sp.start ≤ rest.start
  total : rest.start + rest.len = sp.start + sp.len

/-- The span is the recognised body followed by the rest. -/
structure Consumes (sp : Span) (hi : Nat) (r : Result) : Prop where
  suffix : Suffix sp hi r.rest
  body : r.body = ⟨sp.start, r.rest.start - sp.start⟩

/-- A class of characters without NUL and CR. -/
abbrev Stops (p : UInt8 → Bool) : Prop := p nul = false ∧ p cr = false

variable {m m' : Mem} {sp : Span} {lo hi : Nat}

theorem Reaches.advance (h : Reaches sp hi) {n : Nat} (hn : sp.start + n ≤ hi) :
    Suffix sp hi (sp.advance n) := by
  have hreach := h.reach
  have hlen := Span.advance_len (show n ≤ sp.len by omega) h.small_len
  have hstart := Span.advance_start sp n
  have hsmall := h.small_len
  exact ⟨⟨by omega, by omega, h.small, by omega⟩, by omega, by omega⟩

theorem Suffix.refl (h : Reaches sp hi) : Suffix sp hi sp := ⟨h, Nat.le_refl _, rfl⟩

theorem Suffix.trans {mid rest : Span} (h : Suffix sp hi mid) (h' : Suffix mid hi rest) :
    Suffix sp hi rest :=
  ⟨h'.reaches, Nat.le_trans h.start_le h'.start_le, h'.total.trans h.total⟩

theorem Suffix.advance {rest : Span} (h : Suffix sp hi rest) (hlt : rest.start < hi) :
    Suffix sp hi (rest.advance 1) := h.trans (h.reaches.advance hlt)

theorem Agree.mono (h : Agree m m' lo hi) {lo' : Nat} (hle : lo ≤ lo') : Agree m m' lo' hi :=
  ⟨fun i hlo hhi => h.same i (by omega) hhi, h.stop⟩

theorem Agree.read (h : Agree m m' lo hi) {start n : Nat} (hlo : lo ≤ start)
    (hhi : start + n ≤ hi) : m.read start n = m'.read start n :=
  Mem.read_congr fun i h₁ h₂ => h.same i (by omega) (by omega)

/-- A character of the class is not the one at which parsing stops. -/
theorem Agree.lt_of_class (h : Agree m m' lo hi) {p : UInt8 → Bool} (hp : Stops p) {i : Nat}
    (hle : i ≤ hi) (hi' : p (m i) = true) : i < hi := by
  rcases Nat.lt_or_eq_of_le hle with hlt | rfl
  · exact hlt
  · rcases h.stop with hstop | hstop <;> simp [hstop, hp.1, hp.2] at hi'

/-- What follows a character of the class is still a suffix of the span. -/
theorem Suffix.next {rest : Span} (hrest : Suffix sp hi rest) (h : Agree m m' lo hi)
    {p : UInt8 → Bool} (hp : Stops p) (hs : starts m rest p = true) :
    Suffix sp hi (rest.advance 1) := by
  simp only [starts, Bool.and_eq_true] at hs
  exact hrest.advance (h.lt_of_class hp hrest.reaches.start_le hs.2)

theorem starts_congr (hend : Reaches sp hi) (h : Agree m m' sp.start hi) (p : UInt8 → Bool) :
    starts m sp p = starts m' sp p := by
  simp only [starts, h.same sp.start (Nat.le_refl _) hend.start_le]

/-- `result(base, rest)` takes everything before the rest as the body. -/
theorem Consumes.upTo {rest : Span} (h : Suffix sp hi rest) :
    Consumes sp hi ⟨sp.upTo rest, rest⟩ := by
  refine ⟨h, ?_⟩
  have hsmall := h.reaches.small
  have hle := h.reaches.start_le
  simp only [Span.upTo]
  rw [← Int.ofNat_sub h.start_le, sizeT_natCast (by omega)]

theorem Consumes.body_end {r : Result} (h : Consumes sp hi r) :
    r.body.start + r.body.len = r.rest.start := by
  have := h.suffix.start_le
  rw [h.body]
  simp only
  omega

/-- A loop over the characters of a class stays within the span. -/
theorem skipWhile_local {p : UInt8 → Bool} (hp : Stops p) (fuel : Nat) (hend : Reaches sp hi)
    (h : Agree m m' sp.start hi) :
    skipWhile m p fuel sp = skipWhile m' p fuel sp ∧ Suffix sp hi (skipWhile m p fuel sp) := by
  induction fuel generalizing sp with
  | zero => exact ⟨rfl, .refl hend⟩
  | succ fuel ih =>
      rw [skipWhile, skipWhile, ← starts_congr hend h]
      by_cases hs : starts m sp p = true
      · have hnext := (Suffix.refl hend).next h hp hs
        obtain ⟨heq, hsuffix⟩ := ih hnext.reaches (h.mono hnext.start_le)
        rw [if_pos hs, if_pos hs]
        exact ⟨heq, hnext.trans hsuffix⟩
      · rw [if_neg hs, if_neg hs]
        exact ⟨rfl, .refl hend⟩

/-- A first character of one class and any number of a second one. -/
theorem run_local {p q : UInt8 → Bool} (hp : Stops p) (hq : Stops q) :
    Local Consumes fun m sp =>
      if !starts m sp p then none
      else some ⟨sp.upTo (skipWhile m q sp.len (sp.advance 1)),
        skipWhile m q sp.len (sp.advance 1)⟩ := by
  intro m m' sp hi hend h
  simp only [← starts_congr hend h]
  by_cases hs : starts m sp p = true
  · have hnext := (Suffix.refl hend).next h hp hs
    obtain ⟨heq, hsuffix⟩ := skipWhile_local hq sp.len hnext.reaches (h.mono hnext.start_le)
    simp only [hs, Bool.not_true, Bool.false_eq_true, if_false, ← heq, true_and]
    rintro r hr
    cases hr
    exact .upTo (hnext.trans hsuffix)
  · simp [hs]

theorem atom_local : Local Consumes atom := run_local (by decide) (by decide)

theorem esmtpKeyword_local : Local Consumes esmtpKeyword := run_local (by decide) (by decide)

theorem esmtpValue_local : Local Consumes esmtpValue :=
  run_local (by decide) (by decide)

/-- The NUL behind the span stops the loop when a backslash is the last byte. -/
theorem quotedLoop_local (fuel : Nat) : Local Suffix fun m sp => quotedLoop m fuel sp := by
  intro m m' sp hi hend h
  induction fuel generalizing sp with
  | zero => exact ⟨rfl, fun rest hrest => Option.some.inj hrest ▸ .refl hend⟩
  | succ fuel ih =>
      simp only [quotedLoop, ← starts_congr hend h]
      by_cases hs : starts m sp (· != 34) = true
      · simp only [hs, if_true, ← h.same sp.start (Nat.le_refl _) hend.start_le]
        by_cases hb : (m sp.start == 92) = true
        · have hnext := (Suffix.refl hend).advance
            (h.lt_of_class (p := (· == 92)) (by decide) hend.start_le hb)
          have hle := hnext.reaches.start_le
          simp only [hb, if_true, ← h.same (sp.advance 1).start (Nat.le_succ _) hle]
          by_cases hp : (schar (m (sp.advance 1).start) < 32 ||
              schar (m (sp.advance 1).start) > 126) = true
          · simp only [if_pos hp, true_and, reduceCtorEq, false_implies, implies_true]
          · have hafter := hnext.advance (h.lt_of_class
              (p := fun c => !(schar c < 32 || schar c > 126)) (by decide) hle
              (by simpa only [Bool.not_eq_true', Bool.not_eq_true] using hp))
            obtain ⟨heq, hrest⟩ := ih hafter.reaches (h.mono hafter.start_le)
            simp only [if_neg hp]
            exact ⟨heq, fun rest hsome => hafter.trans (hrest rest hsome)⟩
        · simp only [hb, Bool.false_eq_true, if_false]
          by_cases hq : isqtextSMTP (schar (m sp.start)) = true
          · have hnext := (Suffix.refl hend).advance (h.lt_of_class
              (p := fun c => isqtextSMTP (schar c)) (by decide) hend.start_le hq)
            obtain ⟨heq, hrest⟩ := ih hnext.reaches (h.mono hnext.start_le)
            simp only [hq, Bool.not_true, Bool.false_eq_true, if_false]
            exact ⟨heq, fun rest hsome => hnext.trans (hrest rest hsome)⟩
          · simp [hq]
      · simp only [hs, Bool.false_eq_true, if_false, true_and]
        exact fun rest hrest => Option.some.inj hrest ▸ .refl hend

theorem quotedStringFuel_local (fuel : Nat) :
    Local Consumes fun m sp => quotedStringFuel m fuel sp := by
  intro m m' sp hi hend h
  simp only [quotedStringFuel, ← starts_congr hend h]
  by_cases hs : starts m sp (· == 34) = true
  · have hnext := (Suffix.refl hend).next h (by decide) hs
    obtain ⟨heq, hrest⟩ := quotedLoop_local fuel hnext.reaches (h.mono hnext.start_le)
    simp only [hs, Bool.not_true, Bool.false_eq_true, if_false, ← heq]
    cases hloop : quotedLoop m fuel (sp.advance 1) with
    | none => simp
    | some rest =>
        have hsuffix := hnext.trans (hrest rest hloop)
        simp only [← starts_congr hsuffix.reaches (h.mono hsuffix.start_le)]
        by_cases hclose : starts m rest (· == 34) = true
        · simp only [hclose, Bool.not_true, Bool.false_eq_true, if_false, true_and]
          rintro r hr
          cases hr
          exact .upTo (hsuffix.next h (by decide) hclose)
        · simp [hclose]
  · simp [hs]

theorem quotedString_local : Local Consumes quotedString := by
  intro m m' sp hi hend h
  unfold quotedString
  generalize sp.len + 2 ^ 64 = fuel
  exact quotedStringFuel_local fuel hend h

/-- The constructors with a buffer copy bytes of the span only. -/
theorem sized_local (hend : Reaches sp hi) (h : Agree m m' sp.start hi) {size max : Nat}
    (hsize : sp.start + size ≤ hi) :
    sized m sp size max = sized m' sp size max ∧
      ∀ r, sized m sp size max = some r → Consumes sp hi r.toResult := by
  simp only [sized, h.read (Nat.le_refl _) hsize, true_and]
  intro r hr
  split at hr
  · cases hr
  · cases hr
    refine ⟨hend.advance hsize, ?_⟩
    simp

theorem quotedLocalPart_local {quot : Result} (hquot : Consumes sp hi quot)
    (h : Agree m m' sp.start hi) :
    quotedLocalPart m quot = quotedLocalPart m' quot ∧
      ∀ r, quotedLocalPart m quot = some r → Consumes sp hi r.toResult := by
  have hend := hquot.body_end
  have hle := hquot.suffix.reaches.start_le
  have hstart : quot.body.start = sp.start := by rw [hquot.body]
  simp only [quotedLocalPart, h.read (Nat.le_of_eq hstart.symm)
    (show quot.body.start + quot.body.len ≤ hi by omega), true_and]
  intro r hr
  split at hr
  · cases hr
  · cases hr
    have hupTo : quot.body.upTo quot.rest = sp.upTo quot.rest := by
      simp only [Span.upTo, hstart]
    simp only [hupTo]
    exact .upTo hquot.suffix

theorem dotString_local (fuel : Nat) : Local Suffix fun m sp => dotString m fuel sp := by
  intro m m' sp hi hend h
  induction fuel generalizing sp with
  | zero => exact ⟨rfl, fun rest hrest => Option.some.inj hrest ▸ .refl hend⟩
  | succ fuel ih =>
      obtain ⟨heq, hatom⟩ := atom_local hend h
      simp only [dotString, ← heq]
      cases hr : atom m sp with
      | none => simp
      | some r =>
          have hsuffix := (hatom r hr).suffix
          simp only [← starts_congr hsuffix.reaches (h.mono hsuffix.start_le)]
          by_cases hs : starts m r.rest (· == 46) = true
          · have hnext := hsuffix.next h (by decide) hs
            obtain ⟨heq', hrest⟩ := ih hnext.reaches (h.mono hnext.start_le)
            simp only [hs, Bool.not_true, Bool.false_eq_true, if_false]
            exact ⟨heq', fun rest hsome => hnext.trans (hrest rest hsome)⟩
          · simp only [hs, Bool.not_false, if_true, true_and]
            exact fun rest hrest => Option.some.inj hrest ▸ hsuffix

theorem localPart_local : Local (fun sp hi r => Consumes sp hi r.toResult) localPart := by
  intro m m' sp hi hend h
  obtain ⟨hquoted, hconsumes⟩ := quotedString_local hend h
  simp only [localPart, ← hquoted]
  cases hq : quotedString m sp with
  | some quot => exact quotedLocalPart_local (hconsumes quot hq) h
  | none =>
      obtain ⟨hdot, hsuffix⟩ := dotString_local (sp.len + 1) hend h
      simp only [← hdot]
      cases hd : dotString m (sp.len + 1) sp with
      | none => simp
      | some rest =>
          have hrest := hsuffix rest hd
          have hle := hrest.reaches.start_le
          have hfrom := hrest.start_le
          have hlen := congrArg Span.len (Consumes.upTo hrest).body
          simp only at hlen
          exact sized_local hend h (by omega)

/-- The loop over a label keeps its size within the span. -/
theorem domainLabel_local (h : Agree m m' sp.start hi) (fuel size : Nat) (required : Bool)
    (hsize : sp.start + size ≤ hi) :
    domainLabel m sp fuel size required = domainLabel m' sp fuel size required ∧
      ∀ r, domainLabel m sp fuel size required = some r → sp.start + r.1 ≤ hi := by
  induction fuel generalizing size required with
  | zero =>
      refine ⟨rfl, fun r hr => ?_⟩
      cases hr
      exact hsize
  | succ fuel ih =>
      simp only [domainLabel, ← h.same (sp.start + size) (Nat.le_add_right _ _) hsize]
      by_cases hlt : size < sp.len
      · simp only [hlt, if_true]
        by_cases hc : (!isalnum (m (sp.start + size)) && m (sp.start + size) != 45) = true
        · simp only [hc, if_true, true_and]
          intro r hr
          split at hr <;> cases hr
          exact hsize
        · have hlabel := h.lt_of_class (p := fun c => isalnum c || c == 45) (by decide) hsize
            (by simpa [or_iff_not_imp_left] using hc)
          simp only [hc, Bool.false_eq_true, if_false]
          exact ih (size + 1) false hlabel
      · simp only [hlt, if_false, true_and]
        rintro r hr
        cases hr
        exact hsize

theorem domainLoop_local (h : Agree m m' sp.start hi) (fuel size : Nat) (required : Bool)
    (hsize : sp.start + size ≤ hi) :
    domainLoop m sp fuel size required = domainLoop m' sp fuel size required ∧
      ∀ n, domainLoop m sp fuel size required = some n → sp.start + n ≤ hi := by
  induction fuel generalizing size required with
  | zero => exact ⟨rfl, fun n hn => Option.some.inj hn ▸ hsize⟩
  | succ fuel ih =>
      obtain ⟨heq, hlabel⟩ := domainLabel_local h (sp.len - size) size required hsize
      simp only [domainLoop, ← heq]
      cases hr : domainLabel m sp (sp.len - size) size required with
      | none => simp
      | some r =>
          have hle := hlabel r hr
          simp only [← h.same (sp.start + r.1) (Nat.le_add_right _ _) hle]
          split
          · simp
          · split
            · exact ⟨rfl, fun n hn => Option.some.inj hn ▸ hle⟩
            · rename_i hdot
              simp only [Bool.or_eq_true, not_or, bne_iff_ne, ne_eq, not_not] at hdot
              have hlt := h.lt_of_class (p := (· == 46)) (by decide) hle (by simp [hdot.2])
              exact ih (r.1 + 1) true hlt

theorem domain_local : Local (fun sp hi r => Consumes sp hi r.toResult) domain := by
  intro m m' sp hi hend h
  obtain ⟨heq, hle⟩ := domainLoop_local h (sp.len + 1) 0 true hend.start_le
  simp only [domain, ← heq]
  cases hr : domainLoop m sp (sp.len + 1) 0 true with
  | none => simp
  | some size => exact sized_local hend h (hle size hr)

theorem atDomain_local : Local (fun sp hi r => Suffix sp hi r.rest) atDomain := by
  intro m m' sp hi hend h
  simp only [atDomain, ← starts_congr hend h]
  by_cases hs : starts m sp (· == 64) = true
  · have hnext := (Suffix.refl hend).next h (by decide) hs
    obtain ⟨heq, hdomain⟩ := domain_local hnext.reaches (h.mono hnext.start_le)
    simp only [hs, Bool.not_true, Bool.false_eq_true, if_false]
    exact ⟨heq, fun r hr => hnext.trans (hdomain r hr).suffix⟩
  · simp [hs]

theorem aDLLoop_local (fuel : Nat) : Local Suffix fun m sp => aDLLoop m fuel sp := by
  intro m m' sp hi hend h
  induction fuel generalizing sp with
  | zero => exact ⟨rfl, fun rest hrest => Option.some.inj hrest ▸ .refl hend⟩
  | succ fuel ih =>
      simp only [aDLLoop, ← starts_congr hend h]
      by_cases hs : starts m sp (· == 44) = true
      · have hnext := (Suffix.refl hend).next h (by decide) hs
        obtain ⟨heq, hdomain⟩ := atDomain_local hnext.reaches (h.mono hnext.start_le)
        simp only [hs, if_true, ← heq]
        cases hr : atDomain m (sp.advance 1) with
        | none => simp
        | some r =>
            have hsuffix := hnext.trans (hdomain r hr)
            obtain ⟨heq', hrest⟩ := ih hsuffix.reaches (h.mono hsuffix.start_le)
            exact ⟨heq', fun rest hsome => hsuffix.trans (hrest rest hsome)⟩
      · simp only [hs, Bool.false_eq_true, if_false, true_and]
        exact fun rest hrest => Option.some.inj hrest ▸ .refl hend

theorem aDL_local : Local (fun sp hi r => Suffix sp hi r.rest) aDL := by
  intro m m' sp hi hend h
  obtain ⟨heq, hdomain⟩ := atDomain_local hend h
  simp only [aDL, ← heq]
  cases hr : atDomain m sp with
  | none => exact ⟨rfl, fun r hr => Option.some.inj hr ▸ .refl hend⟩
  | some r =>
      have hsuffix := hdomain r hr
      obtain ⟨heq', hloop⟩ := aDLLoop_local sp.len hsuffix.reaches (h.mono hsuffix.start_le)
      simp only [← heq']
      cases hl : aDLLoop m sp.len r.rest with
      | none => simp
      | some rest =>
          have hrest := hsuffix.trans (hloop rest hl)
          simp only [← starts_congr hrest.reaches (h.mono hrest.start_le)]
          by_cases hs : starts m rest (· == 58) = true
          · simp only [hs, Bool.not_true, Bool.false_eq_true, if_false, true_and]
            exact fun r hr => Option.some.inj hr ▸ hrest.next h (by decide) hs
          · simp [hs]

/-- The part of a mailbox that the session copies lies in the span. -/
structure WithinMailbox (sp : Span) (hi : Nat) (r : MailboxResult) : Prop where
  suffix : Suffix sp hi r.rest
  localPart : sp.start ≤ r.localPart.body.start
  domain : r.domain.body.start + r.domain.body.len ≤ hi
  order : r.localPart.body.start ≤ r.domain.body.start

theorem WithinMailbox.text_congr {r : MailboxResult} (hr : WithinMailbox sp hi r)
    (h : Agree m m' sp.start hi) : r.text m = r.text m' := by
  have := hr.domain
  have := hr.order
  exact h.read hr.localPart (by omega)

/-- Without a source route the null span takes the place of the rest, and nothing
is recognised in it. -/
theorem localPart_null (m : Mem) : localPart m .null = none := by
  simp [localPart, quotedString, quotedStringFuel, dotString, atom, starts, Span.null]

theorem mailbox_local : Local WithinMailbox mailbox := by
  intro m m' sp hi hend h
  obtain ⟨heq, hroute⟩ := aDL_local hend h
  simp only [mailbox, ← heq]
  cases ha : aDL m sp with
  | none => simp [localPart_null]
  | some route =>
      have hsuffix := hroute route ha
      obtain ⟨heqL, hlocal⟩ := localPart_local hsuffix.reaches (h.mono hsuffix.start_le)
      simp only [← heqL]
      cases hl : localPart m route.rest with
      | none => simp
      | some loc =>
          have hloc := hlocal loc hl
          have hrest := hsuffix.trans hloc.suffix
          simp only [← starts_congr hrest.reaches (h.mono hrest.start_le)]
          by_cases hs : starts m loc.rest (· == 64) = true
          · have hnext := hrest.next h (by decide) hs
            obtain ⟨heqD, hdomain⟩ := domain_local hnext.reaches (h.mono hnext.start_le)
            simp only [hs, Bool.not_true, Bool.false_eq_true, if_false, ← heqD]
            cases hd : domain m (loc.rest.advance 1) with
            | none => simp
            | some dom =>
                have hdom := hdomain dom hd
                refine ⟨trivial, fun r hr => ?_⟩
                cases hr
                refine ⟨hnext.trans hdom.suffix, ?_, ?_, ?_⟩
                · rw [hloc.body]
                  exact hsuffix.start_le
                · exact hdom.body_end ▸ hdom.suffix.reaches.start_le
                · rw [hloc.body, hdom.body]
                  exact Nat.le_succ_of_le hloc.suffix.start_le
          · simp [hs]

theorem path_local :
    Local (fun sp hi r => Suffix sp hi r.rest ∧ WithinMailbox sp hi r.mailbox) path := by
  intro m m' sp hi hend h
  simp only [path, ← starts_congr hend h]
  by_cases hs : starts m sp (· == 60) = true
  · have hnext := (Suffix.refl hend).next h (by decide) hs
    obtain ⟨heq, hmailbox⟩ := mailbox_local hnext.reaches (h.mono hnext.start_le)
    simp only [hs, Bool.not_true, Bool.false_eq_true, if_false, ← heq]
    cases hb : mailbox m (sp.advance 1) with
    | none => simp
    | some box =>
        have hbox := hmailbox box hb
        have hrest := hnext.trans hbox.suffix
        simp only [← starts_congr hrest.reaches (h.mono hrest.start_le)]
        by_cases hc : starts m box.rest (· == 62) = true
        · simp only [hc, Bool.not_true, Bool.false_eq_true, if_false, true_and]
          rintro r hr
          cases hr
          exact ⟨hrest.next h (by decide) hc, hrest,
            Nat.le_trans (Nat.le_succ _) hbox.localPart, hbox.domain, hbox.order⟩
        · simp [hc]
  · simp [hs]

theorem reversePath_local :
    Local (fun sp hi r => Suffix sp hi r.rest ∧
      (r.mailbox = .null ∨ WithinMailbox sp hi r.mailbox)) reversePath := by
  intro m m' sp hi hend h
  simp only [reversePath, ← starts_congr hend h]
  by_cases hs : starts m sp (· == 60) = true
  · have hnext := (Suffix.refl hend).next h (by decide) hs
    have hle := hnext.reaches.start_le
    simp only [hs, Bool.not_true, Bool.false_eq_true, if_false,
      ← h.same (sp.advance 1).start (Nat.le_succ _) hle]
    by_cases hzero : ((sp.advance 1).len == 0) = true
    · simp [hzero]
    · simp only [hzero, Bool.false_eq_true, if_false]
      by_cases hempty : (m (sp.advance 1).start == 62) = true
      · simp only [hempty, if_true, true_and]
        rintro r hr
        cases hr
        exact ⟨hnext.advance (h.lt_of_class (p := (· == 62)) (by decide) hle hempty), Or.inl rfl⟩
      · obtain ⟨heq, hmailbox⟩ := mailbox_local hnext.reaches (h.mono hnext.start_le)
        simp only [hempty, Bool.false_eq_true, if_false, ← heq]
        cases hb : mailbox m (sp.advance 1) with
        | none => simp
        | some box =>
            have hbox := hmailbox box hb
            have hrest := hnext.trans hbox.suffix
            simp only [← starts_congr hrest.reaches (h.mono hrest.start_le)]
            by_cases hc : starts m box.rest (· == 62) = true
            · simp only [hc, Bool.not_true, Bool.false_eq_true, if_false, true_and]
              rintro r hr
              cases hr
              exact ⟨hrest.next h (by decide) hc, Or.inr ⟨hrest,
                Nat.le_trans (Nat.le_succ _) hbox.localPart, hbox.domain, hbox.order⟩⟩
            · simp [hc]
  · simp [hs]

theorem esmtpParam_local :
    Local (fun sp hi r => Suffix sp hi r.rest ∧
      (∃ mid, Suffix sp hi mid ∧ Consumes mid hi r.key) ∧
      ∃ mid, Suffix sp hi mid ∧ Consumes mid hi r.value) esmtpParam := by
  intro m m' sp hi hend h
  obtain ⟨heqK, hkey⟩ := esmtpKeyword_local hend h
  simp only [esmtpParam, ← heqK]
  cases hk : esmtpKeyword m sp with
  | none => simp
  | some key =>
      have hkey := hkey key hk
      simp only [← starts_congr hkey.suffix.reaches (h.mono hkey.suffix.start_le)]
      by_cases hs : starts m key.rest (· == 61) = true
      · have hnext := hkey.suffix.next h (by decide) hs
        obtain ⟨heqV, hvalue⟩ := esmtpValue_local hnext.reaches (h.mono hnext.start_le)
        simp only [hs, Bool.not_true, Bool.false_eq_true, if_false, ← heqV]
        cases hv : esmtpValue m (key.rest.advance 1) with
        | none => simp
        | some value =>
            have hvalue := hvalue value hv
            refine ⟨trivial, fun r hr => ?_⟩
            cases hr
            exact ⟨hnext.trans hvalue.suffix, ⟨sp, .refl hend, hkey⟩, ⟨_, hnext, hvalue⟩⟩
      · simp [hs]

/-- The text of a recognised part is read from the span. -/
theorem Consumes.read_congr {mid : Span} {r : Result} (hmid : Suffix sp hi mid)
    (hr : Consumes mid hi r) (h : Agree m m' sp.start hi) :
    m.read r.body.start r.body.len = m'.read r.body.start r.body.len := by
  have hend := hr.body_end
  have hle := hr.suffix.reaches.start_le
  refine h.read ?_ (by omega)
  rw [hr.body]
  exact hmid.start_le

end Ervan.Parse
