import Ervan.Common.Mailbox
import Ervan.Smtp.CommandLine
import Ervan.Smtp.History

/-!
# The parameters of MAIL

The loop of `mail` over `esmtp_param` against the grammar it stands for: behind the path comes
any number of groups, each a blank, BODY in any case, an equals sign and one of two values.
-/

namespace Ervan

namespace Parse

open Grammar

def isParamValue (c : UInt8) : Bool := isestmpvalue (schar c)

/-- A keyword: a letter or a digit, then letters, digits and hyphens. -/
def KeywordText (k : Bytes) : Prop := ∃ c x, k = c :: x ∧ isalnum c = true ∧ Each isKeywordChar x

/-- The result for such a parameter, with so many bytes left. -/
def paramResult (a : Nat) (k v : Bytes) (left : Nat) : EsmtpParamResult :=
  ⟨⟨⟨a, (k ++ 61 :: v).length⟩, ⟨a + (k ++ 61 :: v).length, left⟩⟩,
    ⟨⟨a, k.length⟩, ⟨a + k.length, v.length + 1 + left⟩⟩,
    ⟨⟨a + k.length + 1, v.length⟩, ⟨a + (k ++ 61 :: v).length, left⟩⟩⟩

section Params

variable {m : Mem} {a : Nat} {bs : Bytes}

theorem esmtpKeyword_eq_some (h : m.Holds a bs) {r : Result} :
    esmtpKeyword m ⟨a, bs.length⟩ = some r ↔ ∃ k y, bs = k ++ y ∧ KeywordText k ∧
      Until isKeywordChar y ∧ r = ⟨⟨a, k.length⟩, ⟨a + k.length, y.length⟩⟩ := by
  refine (run_eq_some h).trans ⟨?_, ?_⟩
  · rintro ⟨c, x, y, rfl, hc, each, ends, rfl⟩
    exact ⟨c :: x, y, rfl, ⟨c, x, rfl, hc, each⟩, ends, rfl⟩
  · rintro ⟨_, y, rfl, ⟨c, x, rfl, hc, each⟩, ends, rfl⟩
    exact ⟨c, x, y, rfl, hc, each, ends, rfl⟩

theorem esmtpValue_eq_some (h : m.Holds a bs) {r : Result} :
    esmtpValue m ⟨a, bs.length⟩ = some r ↔ ∃ v y, bs = v ++ y ∧ Stretch isParamValue v ∧
      Until isParamValue y ∧ r = ⟨⟨a, v.length⟩, ⟨a + v.length, y.length⟩⟩ := by
  refine (run_eq_some h).trans ⟨?_, ?_⟩
  · rintro ⟨c, x, y, rfl, hc, each, ends, rfl⟩
    exact ⟨c :: x, y, rfl, ⟨List.cons_ne_nil c x, each_cons.mpr ⟨hc, each⟩⟩, ends, rfl⟩
  · rintro ⟨v, y, rfl, stretch, ends, rfl⟩
    obtain ⟨c, x, rfl⟩ := List.exists_cons_of_ne_nil stretch.ne
    obtain ⟨hc, each⟩ := each_cons.mp stretch.each
    exact ⟨c, x, y, rfl, hc, each, ends, rfl⟩

theorem paramResult_eq {k v y : Bytes} (h : m.Holds a (k ++ 61 :: (v ++ y))) (n : Nat) :
    (EsmtpParamResult.mk
      ⟨(Span.mk a n).upTo ⟨a + k.length + 1 + v.length, y.length⟩,
        ⟨a + k.length + 1 + v.length, y.length⟩⟩
      ⟨⟨a, k.length⟩, ⟨a + k.length, (61 :: (v ++ y)).length⟩⟩
      ⟨⟨a + k.length + 1, v.length⟩, ⟨a + k.length + 1 + v.length, y.length⟩⟩) =
      paramResult a k v y.length := by
  have hassoc : k ++ 61 :: (v ++ y) = (k ++ 61 :: v) ++ y := by simp
  have hend : a + k.length + 1 + v.length = a + (k ++ 61 :: v).length := by
    simp only [List.length_append, List.length_cons]
    omega
  have hleft : (61 :: (v ++ y)).length = v.length + 1 + y.length := by
    simp only [List.length_append, List.length_cons]
    omega
  rw [hassoc] at h
  rw [hend, hleft, Span.upTo_append h, paramResult]

/-- `esmtp_param` succeeds on a keyword, an equals sign and a value, and takes all of the value. -/
theorem esmtpParam_eq_some (h : m.Holds a bs) {r : EsmtpParamResult} :
    esmtpParam m ⟨a, bs.length⟩ = some r ↔ ∃ k v y, bs = k ++ 61 :: (v ++ y) ∧ KeywordText k ∧
      Stretch isParamValue v ∧ Until isParamValue y ∧ r = paramResult a k v y.length := by
  constructor
  · intro hr
    unfold esmtpParam at hr
    cases hkey : esmtpKeyword m ⟨a, bs.length⟩ with
    | none =>
        rw [hkey] at hr
        cases hr
    | some key =>
        obtain ⟨k, y, rfl, hk, -, rfl⟩ := (esmtpKeyword_eq_some h).mp hkey
        rw [hkey] at hr
        cases y with
        | nil => cases hr
        | cons c y =>
            have hy := h.append.2
            simp only [starts_cons hy, Span.advance_cons hy] at hr
            by_cases hequals : c = 61
            · subst hequals
              simp only [beq_self_eq_true, Bool.not_true, Bool.false_eq_true, if_false] at hr
              cases hvalue : esmtpValue m ⟨a + k.length + 1, y.length⟩ with
              | none =>
                  rw [hvalue] at hr
                  cases hr
              | some value =>
                  obtain ⟨v, y, rfl, hv, ends, rfl⟩ := (esmtpValue_eq_some hy.cons.2).mp hvalue
                  rw [hvalue] at hr
                  exact ⟨k, v, y, rfl, hk, hv, ends,
                    (Option.some.inj hr).symm.trans (paramResult_eq h _)⟩
            · simp [beq_eq_false_iff_ne.mpr hequals] at hr
  · rintro ⟨k, v, y, rfl, hk, hv, ends, rfl⟩
    have hy := h.append.2
    have hkey := (esmtpKeyword_eq_some h).mpr ⟨k, _, rfl, hk, until_cons.mpr (by decide), rfl⟩
    have hvalue := (esmtpValue_eq_some hy.cons.2).mpr ⟨v, y, rfl, hv, ends, rfl⟩
    simp only [esmtpParam, hkey, starts_cons hy, Span.advance_cons hy, hvalue]
    exact congrArg some (paramResult_eq h _)

/-- No other keyword and value are at the start of the bytes. -/
theorem param_unique {k v y k' v' y' : Bytes} (hk : KeywordText k) (hv : Stretch isParamValue v)
    (ends : Until isParamValue y) (hk' : KeywordText k') (hv' : Stretch isParamValue v')
    (ends' : Until isParamValue y') (heq : k ++ 61 :: (v ++ y) = k' ++ 61 :: (v' ++ y')) :
    k = k' ∧ v = v' ∧ y = y' := by
  have hkeyword {k : Bytes} (hk : KeywordText k) : Each isKeywordChar k := by
    obtain ⟨c, x, rfl, hc, each⟩ := hk
    exact each_cons.mpr ⟨by rw [isKeywordChar, hc, Bool.true_or], each⟩
  obtain ⟨rfl, hrest⟩ := each_unique (hkeyword hk) (until_cons.mpr (by decide)) (hkeyword hk')
    (until_cons.mpr (by decide)) heq
  obtain ⟨rfl, rfl⟩ := each_unique hv.each ends hv'.each ends' (List.cons.inj hrest).2
  exact ⟨rfl, rfl, rfl⟩

end Params

end Parse

namespace Smtp

open Parse Grammar Ervan.Smtp.Core

/-- The two values that BODY may have. -/
def bodyValues : List Bytes := [text "7BIT", text "8BITMIME"]

/-- The parameters of MAIL. -/
inductive MailParams : Bytes → Prop
  | nil : MailParams []
  | body {k v t : Bytes} (hk : k.map toupper = text "BODY") (hv : v ∈ bodyValues)
      (rest : MailParams t) : MailParams (32 :: (k ++ 61 :: (v ++ t)))

/-- The parameter loop of `mail` comes to an end on the span, with an error or without. -/
inductive ParamLoop (m : Mem) : Span → Bool → Prop
  | done {sp : Span} (h : sp.len = 0) : ParamLoop m sp true
  | noBlank {sp : Span} (h : 0 < sp.len) (hblank : m sp.start ≠ 32) : ParamLoop m sp false
  | malformed {sp : Span} (h : 0 < sp.len) (hblank : m sp.start = 32)
      (hparam : esmtpParam m (sp.advance 1) = none) : ParamLoop m sp false
  | unknown {sp : Span} {param : EsmtpParamResult} (h : 0 < sp.len) (hblank : m sp.start = 32)
      (hparam : esmtpParam m (sp.advance 1) = some param) (hmail : mailParam m param = false) :
      ParamLoop m sp false
  | next {sp : Span} {param : EsmtpParamResult} {ok : Bool} (h : 0 < sp.len)
      (hblank : m sp.start = 32) (hparam : esmtpParam m (sp.advance 1) = some param)
      (hmail : mailParam m param = true) (rest : ParamLoop m param.rest ok) : ParamLoop m sp ok

section Loop

variable {m : Mem} {a fuel : Nat} {k v t y : Bytes}

theorem MailParams.ends (h : MailParams t) : Until isParamValue t := by
  cases h with
  | nil => exact until_nil
  | body hk hv rest => exact until_cons.mpr (by decide)

theorem keyword_body (hk : k.map toupper = text "BODY") : KeywordText k := by
  have hchar (d : UInt8) (hd : d ∈ text "BODY") (c : UInt8) (hc : toupper c = d) :
      isalnum c = true :=
    (forall_byte (p := fun c => ∀ d ∈ text "BODY", toupper c = d → isalnum c = true)
      (by decide +kernel) c) d hd hc
  have heach : Each isalnum k := by
    intro c hc
    exact hchar (toupper c) (by rw [← hk]; exact List.mem_map_of_mem hc) c rfl
  cases k with
  | nil => cases hk
  | cons c x =>
      obtain ⟨hc, each⟩ := each_cons.mp heach
      exact ⟨c, x, rfl, hc, each.mono fun d hd => by rw [isKeywordChar, hd, Bool.true_or]⟩

theorem value_stretch (hv : v ∈ bodyValues) : Stretch isParamValue v := by
  have hall : ∀ v ∈ bodyValues, v ≠ [] ∧ v.all isParamValue = true := by decide
  exact ⟨(hall v hv).1, .of_all (hall v hv).2⟩

/-- Bytes that are equal in small letters are equal in capitals. -/
theorem map_tolower_iff {lit : Bytes} (hlit : ∀ d ∈ lit, ∀ c, tolower c = tolower d ↔ toupper c = d) :
    k.map tolower = lit.map tolower ↔ k.map toupper = lit := by
  induction lit generalizing k with
  | nil => cases k <;> simp
  | cons d lit ih =>
      cases k with
      | nil => simp
      | cons c k =>
          have hd := hlit d List.mem_cons_self c
          have hrest := ih (k := k) fun d hd => hlit d (List.mem_cons_of_mem _ hd)
          simp only [List.map_cons, List.cons.injEq, hd, hrest]

theorem compareInsensitive_body (h : m.read a k.length = k) :
    (Span.mk a k.length).compareInsensitive m (text "BODY") = true ↔ k.map toupper = text "BODY" := by
  have hbytes : ∀ d ∈ text "BODY", ∀ c, tolower c = tolower d ↔ toupper c = d := by
    intro d hd c
    exact forall_byte (p := fun c => ∀ d ∈ text "BODY", tolower c = tolower d ↔ toupper c = d)
      (by decide +kernel) c d hd
  rw [Span.compareInsensitive, h, Bool.and_eq_true, beq_iff_eq, beq_iff_eq,
    map_tolower_iff hbytes]
  constructor
  · exact And.right
  · intro hk
    exact ⟨by rw [← List.length_map toupper, hk], hk⟩

theorem equal_iff (h : m.read a v.length = v) (lit : Bytes) :
    (Span.mk a v.length).equal m lit = true ↔ v = lit := by
  rw [Span.equal, h, Bool.and_eq_true, beq_iff_eq, beq_iff_eq]
  constructor
  · exact And.right
  · rintro rfl
    exact ⟨rfl, rfl⟩

theorem mailParam_eq (m : Mem) (param : EsmtpParamResult) :
    mailParam m param = (param.key.body.compareInsensitive m (text "BODY") &&
      (param.value.body.equal m (text "7BIT") || param.value.body.equal m (text "8BITMIME"))) := by
  unfold mailParam
  cases param.key.body.compareInsensitive m (text "BODY") <;>
    cases param.value.body.equal m (text "7BIT") <;>
    cases param.value.body.equal m (text "8BITMIME") <;> rfl

theorem mailParam_eq_true (h : m.Holds a (k ++ 61 :: (v ++ y))) (n : Nat) :
    mailParam m (paramResult a k v n) = true ↔ k.map toupper = text "BODY" ∧ v ∈ bodyValues := by
  have hkey := compareInsensitive_body h.append.1.read
  have hvalue := equal_iff h.append.2.cons.2.append.1.read (text "7BIT")
  have hvalue' := equal_iff h.append.2.cons.2.append.1.read (text "8BITMIME")
  rw [mailParam_eq, Bool.and_eq_true, Bool.or_eq_true]
  simp only [paramResult, bodyValues, List.mem_cons, List.not_mem_nil, or_false]
  rw [hkey, hvalue, hvalue']

/-- One turn of the loop. -/
theorem mailParams_turn {c : UInt8} {bs : Bytes} (h : m.Holds a (c :: bs)) (fuel : Nat) :
    mailParams m (fuel + 1) ⟨a, (c :: bs).length⟩ =
      if c ≠ 32 then false
      else (esmtpParam m ⟨a + 1, bs.length⟩).elim false fun param =>
        if !mailParam m param then false else mailParams m fuel param.rest := by
  have hlen : (c :: bs).length > 0 := Nat.succ_pos _
  simp only [mailParams, hlen, if_true, h.cons.1, Span.advance_cons h]
  cases esmtpParam m ⟨a + 1, bs.length⟩ with
  | none => rfl
  | some param => rfl

/-- The loop without errors is the grammar of the parameters. -/
theorem mailParams_eq_true (h : m.Holds a t) (hfuel : t.length ≤ fuel) :
    mailParams m fuel ⟨a, t.length⟩ = true ↔ MailParams t := by
  induction fuel generalizing a t with
  | zero =>
      obtain rfl := List.length_eq_zero_iff.mp (Nat.le_zero.mp hfuel)
      exact iff_of_true rfl .nil
  | succ fuel ih =>
      cases t with
      | nil => exact iff_of_true rfl .nil
      | cons c bs =>
          rw [mailParams_turn h]
          by_cases hblank : c = 32
          · subst hblank
            rw [if_neg (not_not_intro rfl)]
            cases hparam : esmtpParam m ⟨a + 1, bs.length⟩ with
            | none =>
                refine iff_of_false (by simp) fun params => ?_
                generalize hw : 32 :: bs = w at params
                cases params with
                | nil => cases hw
                | @body k v t hk hv rest =>
                    have hsome := (esmtpParam_eq_some h.cons.2).mpr ⟨k, v, t,
                      (List.cons.inj hw).2, keyword_body hk, value_stretch hv, rest.ends, rfl⟩
                    rw [hsome] at hparam
                    cases hparam
            | some param =>
                obtain ⟨k, v, y, rfl, hk, hv, ends, rfl⟩ :=
                  (esmtpParam_eq_some h.cons.2).mp hparam
                have hassoc : k ++ 61 :: (v ++ y) = (k ++ 61 :: v) ++ y := by simp
                have hy := h.cons.2
                rw [hassoc] at hy
                have hfuel' : y.length ≤ fuel := by
                  simp only [List.length_cons, List.length_append] at hfuel
                  omega
                have hrest : mailParams m fuel (paramResult (a + 1) k v y.length).rest = true ↔
                    MailParams y := ih hy.append.2 hfuel'
                have hmail := mailParam_eq_true h.cons.2 y.length
                have hparams : MailParams (32 :: (k ++ 61 :: (v ++ y))) ↔
                    (k.map toupper = text "BODY" ∧ v ∈ bodyValues) ∧ MailParams y := by
                  constructor
                  · intro params
                    generalize hw : 32 :: (k ++ 61 :: (v ++ y)) = w at params
                    cases params with
                    | nil => cases hw
                    | @body k' v' t hk' hv' rest =>
                        obtain ⟨rfl, rfl, rfl⟩ := param_unique hk hv ends (keyword_body hk')
                          (value_stretch hv') rest.ends (List.cons.inj hw).2
                        exact ⟨⟨hk', hv'⟩, rest⟩
                  · rintro ⟨⟨hk', hv'⟩, rest⟩
                    exact .body hk' hv' rest
                rw [hparams, ← hmail, ← hrest, Option.elim_some]
                generalize mailParam m (paramResult (a + 1) k v y.length) = known
                cases known <;> simp
          · refine iff_of_false (by simp [hblank]) fun params => ?_
            cases params
            exact hblank rfl

/-- The loop comes to an end on every span, and the model's fuel lasts that long. -/
theorem paramLoop_mailParams (h : m.Holds a t) (hfuel : t.length ≤ fuel) :
    ParamLoop m ⟨a, t.length⟩ (mailParams m fuel ⟨a, t.length⟩) := by
  induction fuel generalizing a t with
  | zero =>
      obtain rfl := List.length_eq_zero_iff.mp (Nat.le_zero.mp hfuel)
      exact .done rfl
  | succ fuel ih =>
      cases t with
      | nil => exact .done rfl
      | cons c bs =>
          have hlen : 0 < (c :: bs).length := Nat.succ_pos _
          have hadvance := Span.advance_cons h
          rw [mailParams_turn h]
          by_cases hblank : c = 32
          · have hbyte : m a = 32 := by rw [h.cons.1, hblank]
            rw [if_neg (not_not_intro hblank)]
            cases hparam : esmtpParam m ⟨a + 1, bs.length⟩ with
            | none => exact .malformed hlen hbyte (by rw [hadvance]; exact hparam)
            | some param =>
                obtain ⟨k, v, y, rfl, hk, hv, ends, rfl⟩ :=
                  (esmtpParam_eq_some h.cons.2).mp hparam
                cases hmail : mailParam m (paramResult (a + 1) k v y.length) with
                | false =>
                    simp only [Option.elim_some, hmail]
                    exact .unknown hlen hbyte (by rw [hadvance]; exact hparam) hmail
                | true =>
                    have hassoc : k ++ 61 :: (v ++ y) = (k ++ 61 :: v) ++ y := by simp
                    have hy := h.cons.2
                    rw [hassoc] at hy
                    have hfuel' : y.length ≤ fuel := by
                      simp only [List.length_cons, List.length_append] at hfuel
                      omega
                    simp only [Option.elim_some, hmail]
                    exact .next hlen hbyte (by rw [hadvance]; exact hparam) hmail
                      (ih hy.append.2 hfuel')
          · have hbyte : m a ≠ 32 := by rwa [h.cons.1]
            rw [if_pos hblank]
            exact .noBlank hlen hbyte

end Loop

section Mail

variable {m : Mem} {a : Nat} {t : Bytes} {c : Core} {r : PartResult}

/-- What `mail` answers once it has its path, in a greeted session that has no sender yet. -/
theorem mailPath_params {sp : Span} (hpath : reversePath m sp = some r)
    (h : m.Holds a t) (hrest : r.rest = ⟨a, t.length⟩) (begun : c.sessionBegun = true)
    (unset : c.reverseSet = false) :
    ∃ reply : Reply, (c.mailPath m sp).log = c.log ++ [.reply reply] ∧
      (reply.code = 250 ↔ MailParams t) ∧ (reply.code = 501 ↔ ¬ MailParams t) := by
  have hparams := mailParams_eq_true h (Nat.le_refl _)
  have hsequence : (c.reverseSet || !c.sessionBegun) = false := by rw [begun, unset]; rfl
  simp only [mailPath, hpath, hsequence, Bool.false_eq_true, if_false, hrest]
  by_cases params : MailParams t
  · rw [hparams.mpr params]
    exact ⟨.ok, rfl, iff_of_true rfl params, iff_of_false (by decide) (not_not_intro params)⟩
  · rw [Bool.eq_false_of_not_eq_true fun htrue => params (hparams.mp htrue)]
    exact ⟨.invalidParameters, rfl, iff_of_false (by decide) params, iff_of_true rfl params⟩

/-- Storing the bytes that are there changes nothing. -/
theorem pokeAll_same (b : CmdBuffer) {start : Nat} {bs : Bytes} (h : b.mem.read start bs.length = bs)
    (hroom : start + bs.length ≤ 510) : (pokeAll b start bs).mem = b.mem := by
  funext i
  by_cases hi : i < start ∨ start + bs.length ≤ i
  · exact pokeAll_mem_outside hi
  · have hread := (pokeAll_read b start bs hroom).trans h.symm
    have hat := congrArg (fun l : Bytes => l[i - start]?) hread
    have hoffset : start + (i - start) = i := by omega
    simpa [Mem.read, List.getElem?_range (show i - start < bs.length by omega), hoffset] using hat

/-- With FROM: and a path in front of them, the parameters decide: the loop comes to an end, and
MAIL is answered 250 exactly on groups of BODY and one of its values, and 501 on all else. -/
theorem mail_params (b : CmdBuffer) (a : Nat) (p t : Bytes) (c : Core) (r : PartResult)
    (hargument : b.mem.Holds a (text "FROM:" ++ (p ++ t)))
    (hroom : a + (text "FROM:" ++ (p ++ t)).length ≤ 510)
    (hpath : reversePath b.mem ⟨a + 5, (p ++ t).length⟩ = some r)
    (hrest : r.rest = ⟨a + 5 + p.length, t.length⟩) (begun : c.sessionBegun = true)
    (unset : c.reverseSet = false) :
    (∃ ok, ParamLoop b.mem r.rest ok ∧ (ok = true ↔ MailParams t)) ∧
      ∃ reply : Reply,
        (c.mail b ⟨a, (text "FROM:" ++ (p ++ t)).length⟩).2.log = c.log ++ [.reply reply] ∧
        (reply.code = 250 ↔ MailParams t) ∧ (reply.code = 501 ↔ ¬ MailParams t) := by
  have ht : b.mem.Holds (a + 5 + p.length) t := hargument.append.2.append.2
  constructor
  · rw [hrest]
    exact ⟨_, paramLoop_mailParams ht (Nat.le_refl _), mailParams_eq_true ht (Nat.le_refl _)⟩
  · have hkeyword : a + (text "FROM:").length ≤ 510 := by
      rw [List.length_append] at hroom
      omega
    have haccept : accept b ⟨a, (text "FROM:" ++ (p ++ t)).length⟩ (text "FROM:") =
        (pokeAll b a (text "FROM:"), some ⟨a + 5, (p ++ t).length⟩) := by
      rw [accept_eq (by decide) hkeyword, if_neg (by simp), Span.advance_append hargument]
      rfl
    have hmem := pokeAll_same b hargument.append.1.read hkeyword
    simp only [mail, haccept, hmem]
    exact mailPath_params hpath ht hrest begun unset

/-- A parameter in small letters with a value in capitals. -/
theorem mail_params_body :
    ∃ reply : Reply, (mail
        (join Memory.zeroed.cmdBuffer (text "FROM:<> body=8BITMIME\r\n") 0 cmdTerminator).1
        ⟨0, (text "FROM:" ++ (text "<>" ++ text " body=8BITMIME")).length⟩
        { (Session.start (fun _ => .ideal) .zeroed).toCore with sessionBegun := true }).2.log =
      (Session.start (fun _ => .ideal) .zeroed).log ++ [.reply reply] ∧ reply.code = 250 := by
  have hargument : (join Memory.zeroed.cmdBuffer (text "FROM:<> body=8BITMIME\r\n") 0
      cmdTerminator).1.mem.Holds 0 (text "FROM:" ++ (text "<>" ++ text " body=8BITMIME")) :=
    ⟨by decide +kernel, by decide⟩
  obtain ⟨-, reply, hlog, hok, -⟩ := mail_params _ 0 (text "<>") (text " body=8BITMIME")
    { (Session.start (fun _ => .ideal) .zeroed).toCore with sessionBegun := true }
    ⟨⟨⟨5, 2⟩, ⟨7, 14⟩⟩, .null⟩ hargument (by decide) (by decide +kernel) rfl rfl rfl
  exact ⟨reply, hlog, hok.mpr (.body (k := text "body") (v := text "8BITMIME") (t := [])
    (by decide) (by decide) .nil)⟩

end Mail

end Smtp

end Ervan
