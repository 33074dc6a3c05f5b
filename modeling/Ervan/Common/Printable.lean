import Ervan.Common.ParseLocal

/-!
# What the parsers accept is printable

Every byte of a recognised path or domain is between 32 and 126, in any memory: a parser looks
at each byte before it passes it. A byte that is not printable therefore stops all of them, and
then what becomes part of an envelope is also bounded in length.
-/

namespace Ervan.Parse

/-- The bytes 32 to 126. -/
def printable (c : UInt8) : Bool := 32 ≤ c && c ≤ 126

/-- All of these bytes are printable. -/
def Printable (bs : Bytes) : Prop := ∀ c ∈ bs, printable c = true

theorem Printable.nil : Printable [] := fun _ hc => absurd hc List.not_mem_nil

/-- The bytes from `lo` up to `hi` are printable. -/
structure Visible (m : Mem) (lo hi : Nat) : Prop where
  le : lo ≤ hi
  all : ∀ i, lo ≤ i → i < hi → printable (m i) = true

section Classes

theorem printable_of_isatext {c : UInt8} (h : isatext c = true) : printable c = true :=
  (forall_byte (p := fun c => isatext c = true → printable c = true) (by decide +kernel) c) h

theorem printable_of_qtext {c : UInt8} (h : isqtextSMTP (schar c) = true) : printable c = true :=
  (forall_byte (p := fun c => isqtextSMTP (schar c) = true → printable c = true)
    (by decide +kernel) c) h

theorem printable_of_quoted {c : UInt8} (h : ¬ (schar c < 32 || schar c > 126) = true) :
    printable c = true :=
  (forall_byte (p := fun c => ¬ (schar c < 32 || schar c > 126) = true → printable c = true)
    (by decide +kernel) c) h

theorem printable_of_label {c : UInt8} (h : ¬ (! isalnum c && c != 45) = true) :
    printable c = true :=
  (forall_byte (p := fun c => ¬ (! isalnum c && c != 45) = true → printable c = true)
    (by decide +kernel) c) h

end Classes

section Visible

variable {m : Mem} {lo mid hi : Nat}

theorem Visible.nil (m : Mem) (lo : Nat) : Visible m lo lo :=
  ⟨Nat.le_refl lo, fun i hlo hhi => by omega⟩

theorem Visible.trans (h : Visible m lo mid) (h' : Visible m mid hi) : Visible m lo hi := by
  refine ⟨Nat.le_trans h.le h'.le, fun i hlo hhi => ?_⟩
  rcases Nat.lt_or_ge i mid with hlt | hge
  · exact h.all i hlo hlt
  · exact h'.all i hge hhi

theorem Visible.next (h : printable (m lo) = true) : Visible m lo (lo + 1) := by
  refine ⟨Nat.le_succ lo, fun i hlo hhi => ?_⟩
  rwa [show i = lo by omega]

/-- A byte that is not printable ends what is visible. -/
theorem Visible.le_of_stop (h : Visible m lo hi) {stop : Nat} (hstop : printable (m stop) = false)
    (hle : lo ≤ stop) : hi ≤ stop := by
  by_contra hlt
  have hseen := h.all stop hle (Nat.lt_of_not_le hlt)
  exact absurd (hseen.symm.trans hstop) (by decide)

theorem Visible.read (h : Visible m lo hi) {n : Nat} (hn : lo + n ≤ hi) :
    Printable (m.read lo n) := by
  intro c hc
  obtain ⟨i, hi', rfl⟩ := List.mem_map.mp hc
  rw [List.mem_range] at hi'
  exact h.all (lo + i) (Nat.le_add_right lo i) (by omega)

/-- A character that a span starts with. -/
theorem Visible.starts {sp : Span} {p : UInt8 → Bool} (h : starts m sp p = true)
    (hp : ∀ c, p c = true → printable c = true) : Visible m sp.start (sp.advance 1).start := by
  rw [Parse.starts, Bool.and_eq_true] at h
  exact Visible.next (hp _ h.2)

end Visible

section Parsers

variable {m : Mem} {sp rest : Span}

theorem printable_of_eq {b : UInt8} (hb : printable b = true) :
    ∀ c : UInt8, (c == b) = true → printable c = true := by
  intro c hc
  rwa [beq_iff_eq.mp hc]

theorem skipWhile_visible {p : UInt8 → Bool} (hp : ∀ c, p c = true → printable c = true)
    (fuel : Nat) (sp : Span) : Visible m sp.start (skipWhile m p fuel sp).start := by
  induction fuel generalizing sp with
  | zero => exact Visible.nil m sp.start
  | succ fuel ih =>
      rw [skipWhile]
      split
      · rename_i hs
        exact (Visible.starts hs hp).trans (ih (sp.advance 1))
      · exact Visible.nil m sp.start

theorem atom_visible {r : Result} (h : atom m sp = some r) :
    Visible m sp.start r.rest.start := by
  have hclass (c : UInt8) (hc : isatext c = true) : printable c = true := printable_of_isatext hc
  unfold atom at h
  split at h
  · cases h
  · rename_i hs
    cases h
    exact (Visible.starts (by simpa using hs) hclass).trans (skipWhile_visible hclass _ _)

theorem quotedLoop_visible {fuel : Nat} (h : quotedLoop m fuel sp = some rest) :
    Visible m sp.start rest.start := by
  induction fuel generalizing sp with
  | zero =>
      cases h
      exact Visible.nil m _
  | succ fuel ih =>
      rw [quotedLoop] at h
      split at h
      · split at h
        · rename_i hescape
          dsimp only at h
          split at h
          · cases h
          · rename_i hquoted
            have hfirst : Visible m sp.start (sp.advance 1).start := by
              apply Visible.next
              rw [beq_iff_eq.mp hescape]
              rfl
            exact (hfirst.trans (Visible.next (printable_of_quoted hquoted))).trans (ih h)
        · split at h
          · cases h
          · rename_i hqtext
            exact (Visible.next (printable_of_qtext (by simpa using hqtext))).trans (ih h)
      · cases h
        exact Visible.nil m _

/-- A quoted string ends up where its result's rest starts, and its body starts where it did. -/
theorem quotedString_visible {r : Result} (h : quotedString m sp = some r) :
    Visible m sp.start r.rest.start ∧ r.body = sp.upTo r.rest := by
  have hquote : printable 34 = true := rfl
  unfold quotedString at h
  generalize sp.len + 2 ^ 64 = fuel at h
  unfold quotedStringFuel at h
  split at h
  · cases h
  · rename_i hopen
    have hfirst : Visible m sp.start (sp.advance 1).start :=
      Visible.starts (by simpa using hopen) (printable_of_eq hquote)
    cases hloop : quotedLoop m fuel (sp.advance 1) with
    | none =>
        rw [hloop] at h
        cases h
    | some rest =>
        rw [hloop] at h
        dsimp only at h
        split at h
        · cases h
        · rename_i hclose
          cases h
          have hlast : Visible m rest.start (rest.advance 1).start :=
            Visible.starts (by simpa using hclose) (printable_of_eq hquote)
          exact ⟨(hfirst.trans (quotedLoop_visible hloop)).trans hlast, rfl⟩

theorem dotString_visible {fuel : Nat} (h : dotString m fuel sp = some rest) :
    Visible m sp.start rest.start := by
  induction fuel generalizing sp with
  | zero =>
      cases h
      exact Visible.nil m _
  | succ fuel ih =>
      rw [dotString] at h
      cases hatom : atom m sp with
      | none =>
          rw [hatom] at h
          cases h
      | some r =>
          rw [hatom] at h
          dsimp only at h
          have hfirst := atom_visible hatom
          split at h
          · cases h
            exact hfirst
          · rename_i hdot
            have hnext : Visible m r.rest.start (r.rest.advance 1).start :=
              Visible.starts (by simpa using hdot) (printable_of_eq (b := 46) rfl)
            exact (hfirst.trans hnext).trans (ih h)

theorem domainLabel_visible {fuel size : Nat} {required : Bool} {r : Nat × Bool}
    (h : domainLabel m sp fuel size required = some r) :
    Visible m (sp.start + size) (sp.start + r.1) := by
  induction fuel generalizing size required with
  | zero =>
      cases h
      exact Visible.nil m _
  | succ fuel ih =>
      rw [domainLabel] at h
      split at h
      · split at h
        · split at h <;> cases h
          exact Visible.nil m _
        · rename_i hlabel
          exact (Visible.next (printable_of_label hlabel)).trans (ih h)
      · cases h
        exact Visible.nil m _

theorem domainLoop_visible {fuel size n : Nat} {required : Bool}
    (h : domainLoop m sp fuel size required = some n) :
    Visible m (sp.start + size) (sp.start + n) := by
  induction fuel generalizing size required with
  | zero =>
      cases h
      exact Visible.nil m _
  | succ fuel ih =>
      rw [domainLoop] at h
      cases hlabel : domainLabel m sp (sp.len - size) size required with
      | none =>
          rw [hlabel] at h
          cases h
      | some r =>
          rw [hlabel] at h
          dsimp only at h
          have hfirst := domainLabel_visible hlabel
          split at h
          · cases h
          · split at h
            · cases h
              exact hfirst
            · rename_i hdot
              simp only [Bool.or_eq_true, not_or, bne_iff_ne, ne_eq, not_not] at hdot
              have hnext : Visible m (sp.start + r.1) (sp.start + (r.1 + 1)) := by
                apply Visible.next
                rw [hdot.2]
                rfl
              exact (hfirst.trans hnext).trans (ih h)

/-- The result of a constructor with a buffer: so many bytes, and no more than `max`. -/
theorem sized_eq {size max : Nat} {r : BufferedResult} (h : sized m sp size max = some r) :
    r.body = ⟨sp.start, size⟩ ∧ r.rest = sp.advance size ∧ size ≤ max := by
  unfold sized at h
  split at h
  · cases h
  · cases h
    exact ⟨rfl, rfl, by omega⟩

theorem domain_visible {r : BufferedResult} (h : domain m sp = some r) :
    Visible m sp.start r.rest.start ∧ r.body = ⟨sp.start, r.body.len⟩ ∧
      r.rest.start = sp.start + r.body.len ∧ r.body.len ≤ domainMaxSize := by
  unfold domain at h
  cases hloop : domainLoop m sp (sp.len + 1) 0 true with
  | none =>
      rw [hloop] at h
      cases h
  | some size =>
      rw [hloop] at h
      obtain ⟨hbody, hrest, hle⟩ := sized_eq h
      rw [hbody, hrest]
      exact ⟨domainLoop_visible hloop, rfl, rfl, hle⟩

/-- The length of `span(begin(), rest.begin())`, as long as something stops the parser. -/
theorem upTo_len {stop : Nat} (h : Visible m sp.start rest.start) (hstop : printable (m stop) = false)
    (hle : sp.start ≤ stop) (hsmall : stop < 2 ^ 64) :
    (sp.upTo rest).len = rest.start - sp.start := by
  have hbound := h.le_of_stop hstop hle
  rw [Span.upTo, ← Int.ofNat_sub h.le]
  exact sizeT_natCast (by omega)

/-- A local part starts where the span does, and its rest where its last byte ends. It has at
most 64 bytes, when a NUL keeps it away from the limits of `size_t`. -/
theorem localPart_visible {stop : Nat} (hstop : printable (m stop) = false) (hle : sp.start ≤ stop)
    (hsmall : stop < 2 ^ 64) {r : BufferedResult} (h : localPart m sp = some r) :
    Visible m sp.start r.rest.start ∧ r.body.start = sp.start ∧
      r.rest.start ≤ sp.start + localPartMaxSize := by
  unfold localPart at h
  cases hquoted : quotedString m sp with
  | some quot =>
      rw [hquoted] at h
      obtain ⟨hvisible, hbody⟩ := quotedString_visible hquoted
      have hlen := upTo_len hvisible hstop hle hsmall
      rw [← hbody] at hlen
      dsimp only at h
      unfold quotedLocalPart at h
      split at h
      · cases h
      · cases h
        refine ⟨hvisible, by rw [hbody]; rfl, ?_⟩
        have := hvisible.le
        dsimp only
        omega
  | none =>
      rw [hquoted] at h
      dsimp only at h
      cases hdots : dotString m (sp.len + 1) sp with
      | none =>
          rw [hdots] at h
          cases h
      | some rest =>
          rw [hdots] at h
          have hvisible := dotString_visible hdots
          obtain ⟨hbody, hrest, hmax⟩ := sized_eq h
          rw [upTo_len hvisible hstop hle hsmall] at hrest hmax
          have hstart : r.rest.start = rest.start := by
            have := hvisible.le
            rw [hrest, Span.advance_start]
            omega
          rw [hstart, hbody]
          have := hvisible.le
          exact ⟨hvisible, rfl, by omega⟩

theorem atDomain_visible {r : BufferedResult} (h : atDomain m sp = some r) :
    Visible m sp.start r.rest.start := by
  unfold atDomain at h
  split at h
  · cases h
  · rename_i hat
    have hfirst : Visible m sp.start (sp.advance 1).start :=
      Visible.starts (by simpa using hat) (printable_of_eq (b := 64) rfl)
    exact hfirst.trans (domain_visible h).1

theorem aDLLoop_visible {fuel : Nat} (h : aDLLoop m fuel sp = some rest) :
    Visible m sp.start rest.start := by
  induction fuel generalizing sp with
  | zero =>
      cases h
      exact Visible.nil m _
  | succ fuel ih =>
      rw [aDLLoop] at h
      split at h
      · rename_i hcomma
        have hfirst : Visible m sp.start (sp.advance 1).start :=
          Visible.starts hcomma (printable_of_eq (b := 44) rfl)
        cases hdomain : atDomain m (sp.advance 1) with
        | none =>
            rw [hdomain] at h
            cases h
        | some r =>
            rw [hdomain] at h
            exact (hfirst.trans (atDomain_visible hdomain)).trans (ih h)
      · cases h
        exact Visible.nil m _

theorem aDL_visible {r : Result} (h : aDL m sp = some r) : Visible m sp.start r.rest.start := by
  unfold aDL at h
  cases hdomain : atDomain m sp with
  | none =>
      rw [hdomain] at h
      cases h
      exact Visible.nil m _
  | some first =>
      rw [hdomain] at h
      dsimp only at h
      cases hloop : aDLLoop m sp.len first.rest with
      | none =>
          rw [hloop] at h
          cases h
      | some rest =>
          rw [hloop] at h
          dsimp only at h
          split at h
          · cases h
          · rename_i hcolon
            cases h
            have hlast : Visible m rest.start (rest.advance 1).start :=
              Visible.starts (by simpa using hcolon) (printable_of_eq (b := 58) rfl)
            exact ((atDomain_visible hdomain).trans (aDLLoop_visible hloop)).trans hlast

/-- A mailbox has no more bytes than its two parts and the `@` between them. -/
def mailboxMaxSize : Nat := localPartMaxSize + 1 + domainMaxSize

/-- The text of a mailbox is printable and bounded. -/
theorem mailbox_text {stop : Nat} (hstop : printable (m stop) = false) (hle : sp.start ≤ stop)
    (hsmall : stop < 2 ^ 64) {r : MailboxResult} (h : mailbox m sp = some r) :
    Printable (r.text m) ∧ (r.text m).length ≤ mailboxMaxSize := by
  cases hroute : aDL m sp with
  | none => simp [mailbox, hroute, localPart_null] at h
  | some route =>
      have hsrc : route.rest.start ≤ stop := (aDL_visible hroute).le_of_stop hstop hle
      simp only [mailbox, hroute] at h
      cases hlocal : localPart m route.rest with
      | none =>
          rw [hlocal] at h
          cases h
      | some localPart =>
          rw [hlocal] at h
          dsimp only at h
          split at h
          · cases h
          · rename_i hat
            cases hdomain : domain m (localPart.rest.advance 1) with
            | none =>
                rw [hdomain] at h
                cases h
            | some domain =>
                rw [hdomain] at h
                cases h
                obtain ⟨hvisible, hstart, hmax⟩ := localPart_visible hstop hsrc hsmall hlocal
                obtain ⟨hvisible', hbody, hend, hmax'⟩ := domain_visible hdomain
                have hmid : Visible m localPart.rest.start (localPart.rest.advance 1).start :=
                  Visible.starts (by simpa using hat) (printable_of_eq (b := 64) rfl)
                have hall := (hvisible.trans hmid).trans hvisible'
                have hdomainstart := congrArg Span.start hbody
                simp only [Span.advance_start] at hend hdomainstart
                have hle' := hall.le
                simp only [MailboxResult.text, hstart]
                refine ⟨hall.read (by omega), ?_⟩
                rw [Mem.length_read, mailboxMaxSize]
                omega

/-- A forward path. -/
theorem path_text {stop : Nat} (hstop : printable (m stop) = false) (hle : sp.start < stop)
    (hsmall : stop < 2 ^ 64) {r : PartResult} (h : path m sp = some r) :
    Printable (r.mailbox.text m) ∧ (r.mailbox.text m).length ≤ mailboxMaxSize := by
  unfold path at h
  split at h
  · cases h
  · cases hmailbox : mailbox m (sp.advance 1) with
    | none =>
        rw [hmailbox] at h
        cases h
    | some mailbox =>
        rw [hmailbox] at h
        dsimp only at h
        split at h
        · cases h
        · cases h
          have hnext : (sp.advance 1).start ≤ stop := hle
          exact mailbox_text hstop hnext hsmall hmailbox

/-- A reverse path, which may be empty. -/
theorem reversePath_text {stop : Nat} (hstop : printable (m stop) = false) (hle : sp.start < stop)
    (hsmall : stop < 2 ^ 64) {r : PartResult} (h : reversePath m sp = some r) :
    Printable (r.mailbox.text m) ∧ (r.mailbox.text m).length ≤ mailboxMaxSize := by
  unfold reversePath at h
  split at h
  · cases h
  · dsimp only at h
    split at h
    · cases h
    · split at h
      · cases h
        exact ⟨.nil, Nat.zero_le _⟩
      · cases hmailbox : mailbox m (sp.advance 1) with
        | none =>
            rw [hmailbox] at h
            cases h
        | some mailbox =>
            rw [hmailbox] at h
            dsimp only at h
            split at h
            · cases h
            · cases h
              have hnext : (sp.advance 1).start ≤ stop := hle
              exact mailbox_text hstop hnext hsmall hmailbox

/-- The name in a greeting. -/
theorem domain_text {r : BufferedResult} (h : domain m sp = some r) :
    Printable (m.read r.body.start r.body.len) ∧
      (m.read r.body.start r.body.len).length ≤ domainMaxSize := by
  obtain ⟨hvisible, hbody, hend, hmax⟩ := domain_visible h
  have hstart := congrArg Span.start hbody
  rw [hstart, Mem.length_read]
  exact ⟨hvisible.read (Nat.le_of_eq hend.symm), hmax⟩

end Parsers

end Ervan.Parse
