import Ervan.Common.ShortLines
import Ervan.Smtp.Limits
import Ervan.Smtp.Serving

/-!
# What a mail reader finds

`message.mbox` of a delivered file, read line by line: a Received field, folded in whatever way the
uninitialised `line_length` makes of it, and then the lines of the message as they were sent. No
line is longer than `max_line_length`.
-/

namespace Ervan.Smtp

open Filling Framing Rfc5322

/-- A Received field and these lines, none of them too long. -/
def ReadAs (lines : List Bytes) (mbox : Bytes) : Prop :=
  ∃ first rest, splitCrlf [] mbox = (first :: (rest ++ lines), []) ∧
    text "Received:" <+: first ∧ (∀ line ∈ rest, text "\t" <+: line) ∧
    ∀ line ∈ first :: (rest ++ lines), line.length ≤ maxLineLength

/-- The parts that `write_trace_info` writes. -/
def traceParts (a : Answer) : List Rfc5322.Part :=
  ⟨text "by", true⟩ :: ⟨a.cfg.hostname, true⟩ :: ⟨text ";", false⟩ ::
    (Writer.timeFormats.map a.strftime).map (Rfc5322.Part.mk · true)

/-- The hostname and the parts of a date fit the header. -/
structure Answer.Plain (a : Answer) : Prop where
  hostname : cr ∉ a.cfg.hostname
  hostname_le : a.cfg.hostname.length ≤ 255
  date : ∀ format ∈ Writer.timeFormats, cr ∉ a.strftime format
  date_le : ∀ format ∈ Writer.timeFormats, (a.strftime format).length ≤ 31

section Header

variable {a : Answer} {lines : List Bytes} {parts : List Rfc5322.Part}

theorem writeBodyParts_eq (w : Writer) (parts : List Bytes) :
    w.writeBodyParts parts =
      w.writeParts prefferedLineLength (parts.map (Rfc5322.Part.mk · true)) := by
  induction parts generalizing w with
  | nil => rfl
  | cons part parts ih =>
      rw [Writer.writeBodyParts, List.map_cons, Writer.writeParts]
      simp only [ih]
      rfl

theorem traceInfo_flatten (a : Answer) : (Core.traceInfo a).flatten =
    Writer.header prefferedLineLength a.stack (text "Received") (traceParts a) := by
  have hpair (x : Writer × List Bytes) : ∃ w bs, x = (w, bs) := ⟨x.1, x.2, rfl⟩
  obtain ⟨w, header, hbegin⟩ := hpair ((Writer.mk a.stack).beginHeader (text "Received"))
  obtain ⟨w₁, by_, hby⟩ := hpair (w.writeBodyPart (text "by") true)
  obtain ⟨w₂, hostname, hhostname⟩ := hpair (w₁.writeBodyPart a.cfg.hostname true)
  obtain ⟨w₃, semicolon, hsemicolon⟩ := hpair (w₂.writeBodyPart (text ";") false)
  unfold Core.traceInfo Writer.header traceParts
  simp only [hbegin, hby, hhostname, hsemicolon, Writer.writeTime, writeBodyParts_eq]
  rw [Writer.writeBodyPart] at hby hhostname hsemicolon
  simp only [Writer.writeParts, hby, hhostname, hsemicolon, List.append_assoc]

/-- A header with a clear name and clear parts, line by line. -/
theorem splitCrlf_header (lineLength : Int) {name : Bytes} (hname : cr ∉ cString name)
    (hparts : ∀ p ∈ parts, cr ∉ p.bytes) :
    let filled := fill (counting prefferedLineLength)
      (int32 (lineLength + (cString name).length)) parts
    splitCrlf [] (Writer.header prefferedLineLength lineLength name parts) =
      ((cString name ++ text ":" ++ render filled.first) :: filled.lines.map body, []) := by
  intro filled
  obtain ⟨hfirst, hlines⟩ := filled_clear hparts (F := counting prefferedLineLength)
    (int32 (lineLength + (cString name).length))
  have hclear : ∀ l ∈ (cString name ++ text ":" ++ render filled.first) :: filled.lines.map body,
      cr ∉ l := by
    intro l hl
    have hcolon : cr ∉ text ":" := by decide
    have htab : cr ∉ text "\t" := by decide
    rcases List.mem_cons.mp hl with rfl | hl
    · rw [List.mem_append, List.mem_append, not_or, not_or]
      exact ⟨⟨hname, hcolon⟩, hfirst⟩
    · obtain ⟨line, hline, rfl⟩ := List.mem_map.mp hl
      rw [body, List.mem_append, List.mem_append, not_or, not_or]
      exact ⟨⟨htab, (hlines line hline).1⟩, (hlines line hline).2⟩
  rw [← splitCrlf_lines hclear, header_lines, List.flatMap_cons, List.flatMap_map]
  simp only [filled, List.append_assoc]

theorem length_writeParts_le (limit : Nat) (w : Writer) (parts : List Rfc5322.Part) :
    (w.writeParts limit parts).2.flatten.length ≤ (parts.map fun p => p.bytes.length + 3).sum := by
  induction parts generalizing w with
  | nil => exact Nat.le_refl 0
  | cons p parts ih =>
      have hfirst : (w.writeBodyPartWithin limit p.part p.space).2.flatten.length ≤
          p.bytes.length + 3 := by
        by_cases h : (counting limit).Fits w.lineLength p
        · have hwidth : p.rendered.length = _ := width_eq p
          rw [(writeBodyPartWithin_fits h).2, hwidth]
          split <;> omega
        · rw [(writeBodyPartWithin_breaks h).2, List.length_append]
          exact Nat.le_of_eq (Nat.add_comm _ _)
      rw [Writer.writeParts, List.flatten_append, List.length_append, List.map_cons, List.sum_cons]
      exact Nat.add_le_add hfirst (ih _)

theorem length_header_le (limit : Nat) (lineLength : Int) (name : Bytes)
    (parts : List Rfc5322.Part) :
    (Writer.header limit lineLength name parts).length ≤
      (cString name).length + 3 + (parts.map fun p => p.bytes.length + 3).sum := by
  have hparts := length_writeParts_le limit ((Writer.mk lineLength).beginHeader name).1 parts
  simp only [Writer.header, List.flatten_append, List.length_append]
  have hname : ((Writer.mk lineLength).beginHeader name).2.flatten.length =
      (cString name).length + 1 := by
    simp [Writer.beginHeader, text]
  have hend : Writer.endHeader.flatten.length = 2 := rfl
  omega

theorem length_cString_le (bs : Bytes) : (cString bs).length ≤ bs.length :=
  (List.takeWhile_sublist _).length_le

/-- The trace information is some 500 bytes long at most. -/
theorem length_traceInfo_le (plain : a.Plain) : (Core.traceInfo a).flatten.length ≤ 998 := by
  rw [traceInfo_flatten]
  refine (length_header_le _ _ _ _).trans ?_
  have hhostname := (length_cString_le a.cfg.hostname).trans plain.hostname_le
  have hdate (format : Bytes) (hformat : format ∈ Writer.timeFormats) :=
    (length_cString_le (a.strftime format)).trans (plain.date_le format hformat)
  have hdates : (((Writer.timeFormats.map a.strftime).map (Rfc5322.Part.mk · true)).map
      fun p => p.bytes.length + 3).sum ≤ 6 * 34 := by
    rw [List.map_map, List.map_map]
    refine (List.sum_le_card_nsmul _ 34 fun n hn => ?_).trans (Nat.le_refl _)
    obtain ⟨format, hformat, rfl⟩ := List.mem_map.mp hn
    exact Nat.add_le_add_right (hdate format hformat) 3
  have hby : (cString (text "by")).length = 2 := by decide
  have hsemicolon : (cString (text ";")).length = 1 := by decide
  have hname : (cString (text "Received")).length = 8 := by decide
  simp only [traceParts, List.map_cons, List.sum_cons, Rfc5322.Part.bytes] at hdates ⊢
  omega

end Header

section Lines

variable {a : Answer} {lines : List Bytes} {line l : Bytes}

/-- A line without a CRLF is read back, also if there is a CR in it. -/
theorem splitCrlf_record (clean : ¬ crlf <:+: line ++ l) (bs : Bytes) :
    splitCrlf line (l ++ (crlf ++ bs)) =
      ((line ++ l) :: (splitCrlf [] bs).1, (splitCrlf [] bs).2) := by
  induction l generalizing line with
  | nil =>
      rw [List.append_nil]
      exact splitCrlf_end line bs
  | cons c l ih =>
      have hother : ¬ (c = lf ∧ line.getLast? = some cr) := by
        rintro ⟨rfl, hlast⟩
        obtain ⟨front, rfl⟩ := List.getLast?_eq_some_iff.mp hlast
        exact clean ⟨front, l, by simp [crlf]⟩
      have hnext : line ++ [c] ++ l = line ++ c :: l := List.append_cons .. |>.symm
      rw [List.cons_append, splitCrlf_other hother, ih (hnext ▸ clean), hnext]

theorem splitCrlf_terminated (clean : ∀ l ∈ lines, ¬ crlf <:+: l) :
    splitCrlf [] (terminated lines) = (lines, []) := by
  induction lines with
  | nil => rfl
  | cons l lines ih =>
      have hterminated : terminated (l :: lines) = l ++ (crlf ++ terminated lines) := by
        rw [terminated, List.flatMap_cons, List.append_assoc]
        rfl
      have hfirst : ¬ crlf <:+: [] ++ l := clean l List.mem_cons_self
      rw [hterminated, splitCrlf_record hfirst,
        ih fun l' hl' => clean l' (List.mem_cons_of_mem l hl')]
      rfl

theorem unstuff_clean (clean : ¬ crlf <:+: l) : ¬ crlf <:+: unstuff l := by
  unfold unstuff
  split
  · exact fun h => clean (h.trans (List.tail_suffix l).isInfix)
  · exact clean

/-- The trace information and the lines of a message are read as such. -/
theorem readAs_body (plain : a.Plain) (clean : ∀ l ∈ lines, ¬ crlf <:+: l)
    (short : ∀ l ∈ lines, l.length ≤ 996) :
    ReadAs lines ((Core.traceInfo a).flatten ++ terminated lines) := by
  have hname : cr ∉ cString (text "Received") := by decide
  have hclear {part : Bytes} (h : cr ∉ part) : cr ∉ cString part :=
    fun hmem => h ((List.takeWhile_sublist _).subset hmem)
  have hparts : ∀ p ∈ traceParts a, cr ∉ p.bytes := by
    intro p hp
    simp only [traceParts, List.mem_cons, List.mem_map] at hp
    rcases hp with rfl | rfl | rfl | ⟨_, ⟨format, hformat, rfl⟩, rfl⟩
    · exact hclear (by decide)
    · exact hclear plain.hostname
    · exact hclear (by decide)
    · exact hclear (plain.date format hformat)
  have hcolon : cString (text "Received") ++ text ":" = text "Received:" := by decide
  obtain ⟨filled, hsplit⟩ : ∃ filled : Filled Rfc5322.Part,
      splitCrlf [] (Core.traceInfo a).flatten = ((text "Received:" ++ render filled.first) :: filled.lines.map body, []) := by
    rw [traceInfo_flatten, splitCrlf_header a.stack hname hparts, hcolon]
    exact ⟨_, rfl⟩
  have hlong := (length_splitCrlf (Core.traceInfo a).flatten).1
  rw [hsplit] at hlong
  refine ⟨text "Received:" ++ render filled.first, filled.lines.map body, ?_,
    List.prefix_append _ _, fun line hline => ?_, fun line hline => ?_⟩
  · rw [splitCrlf_append, hsplit, splitCrlf_terminated clean]
    rfl
  · obtain ⟨folded, -, rfl⟩ := List.mem_map.mp hline
    rw [body, List.append_assoc]
    exact List.prefix_append _ _
  · rw [← List.cons_append] at hline
    rcases List.mem_append.mp hline with hline | hline
    · exact (hlong line hline).trans (length_traceInfo_le plain)
    · exact (short line hline).trans (by decide)

end Lines

namespace Session

/-- What is found in the file of every message that the service has accepted: it starts with
`message.mbox`, and that is read as a Received field and the lines of the message, whatever was in
the memory of the header writer. -/
theorem delivers_mail (env : Env) (cfg : Config) (fixed : ∀ n, (env n).cfg = cfg)
    (posix : ∀ n, (env n).told = true) (plain : ∀ n, (env n).Plain)
    (room : cfg.maxmessagesize + 1024 < 2 ^ 64) (removed : Nat → Bool) (mem : Memory)
    (chunks : List Bytes) (h : ByLine env mem chunks) :
    ∃ outcomes : List Bool, outcomes.length = (splitCrlf [] chunks.flatten).1.length ∧
      ((∀ n, (env n).Works) → mem.dataError = false → ∀ b ∈ outcomes, b = true) ∧
      let v := (Service.start cfg).hearAll cfg (outcomes.zip (splitCrlf [] chunks.flatten).1)
      let c := ((start env mem).feedAll env chunks).toCore
      Smtp.replies c.log = v.replies ∧
        List.Forall₂ (fun m contents => ∃ mbox rest now, ReadAs m.lines mbox ∧
            contents = (Io.TarHeader.filled (text "message.mbox") (sizeT mbox.length) now).bytes ++
              (mbox ++ rest))
          v.messages ((c.trail env removed).delivered.map Prod.snd) := by
  obtain ⟨outcomes, hlength, hall, hserves⟩ := exists_serves env cfg fixed posix room removed mem
    chunks h
  refine ⟨outcomes, hlength, fun works clear b hb => hall b hb ⟨works, clear⟩, hserves.replies, ?_⟩
  have hclean := (splitCrlf_clean (show ¬ crlf <:+: [] by decide) chunks.flatten).1
  have hmade : Service.Made (fun line => ¬ crlf <:+: line) ((Service.start cfg).hearAll cfg
      (outcomes.zip (splitCrlf [] chunks.flatten).1)) := by
    refine (Service.Made.start cfg).hearAll fun x hx => ?_
    exact hclean x.2 (List.of_mem_zip hx).2
  have hwithin := ((Service.Within.start cfg).hearAll
    (outcomes.zip (splitCrlf [] chunks.flatten).1)).messages
  refine List.Forall₂.imp ?_ ((List.forall₂_and_left _ _).mpr ⟨fun m hm => hm, hserves.filed⟩)
  rintro m contents ⟨hm, k, now, now', hcontents⟩
  refine ⟨_, _, now, readAs_body (plain k) (fun l hl => ?_) (hwithin m hm).short, hcontents⟩
  obtain ⟨received, hreceived, rfl⟩ := hmade.messages m hm l hl
  exact unstuff_clean hreceived

theorem delivers_mail_two :
    List.Forall₂ (fun lines contents => ∃ mbox, ReadAs lines mbox ∧ mbox <:+: contents)
      [[text "."]] ((((start tight .zeroed).feedAll tight twoMessages).toCore.trail tight
        fun _ => true).delivered.map Prod.snd) := by
  have hworks (n : Nat) : (tight n).Works := ⟨rfl, rfl, rfl, nofun⟩
  have hplain : (tight 0).Plain := ⟨by decide, by decide, by decide, by decide⟩
  obtain ⟨outcomes, hlength, hall, -, hmail⟩ := delivers_mail tight (tight 0).cfg (fun _ => rfl)
    (fun _ => rfl) (fun _ => hplain) (by decide) (fun _ => true) .zeroed twoMessages
    (byLine_twoMessages tight)
  have houtcomes : outcomes = List.replicate outcomes.length true :=
    List.eq_replicate_iff.mpr ⟨rfl, hall hworks rfl⟩
  rw [houtcomes, hlength] at hmail
  have hlines : (((Service.start (tight 0).cfg).hearAll (tight 0).cfg
      ((List.replicate (splitCrlf [] twoMessages.flatten).1.length true).zip
        (splitCrlf [] twoMessages.flatten).1)).messages.map Message.lines) = [[text "."]] := by
    decide +kernel
  rw [← hlines, List.forall₂_map_left_iff]
  refine hmail.imp fun m contents ⟨mbox, rest, now, hread, heq⟩ => ⟨mbox, hread, ?_⟩
  rw [heq, ← List.append_assoc]
  exact List.infix_append _ _ _

end Session

end Ervan.Smtp
