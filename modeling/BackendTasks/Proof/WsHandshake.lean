import BackendTasks.Net.Head
import BackendTasks.Spec.WebSocketServer

/-!
# Which handshakes are accepted

`handle_handshake` searches the whole text for "Upgrade: websocket" and takes the key from the first
line that begins with "Sec-WebSocket-Key:" (`handshakeKey_iff`). Which lines the header section
has, how the names are spelled and whether the text stands elsewhere decide if that is what the headers
say (`handshake_iff`).
-/

namespace BackendTasks.WebSocketServer

open Net

variable {request key value : Bytes}

/-! ## What a handshake is -/

/-- A line that is empty, or has the `\r` of its end alone. -/
def isBlank (line : Bytes) : Bool := line == [] || line == [13]

/-- The header lines of the request. -/
def headers (request : Bytes) : List Bytes := headLines isBlank request

/-- An Upgrade header with the value websocket. -/
def UpgradeHeader (request : Bytes) : Prop :=
  ∃ value, HasHeader (headers request) (ascii "Upgrade") value ∧ lowercase (trim value) = ascii "websocket"

/-- A Sec-WebSocket-Key header with this key. -/
def KeyHeader (request key : Bytes) : Prop :=
  ∃ value, HasHeader (headers request) (ascii "Sec-WebSocket-Key") value ∧ solid value = key ∧ key ≠ []

/-- A request to upgrade with this key. -/
def Upgrades (request key : Bytes) : Prop := UpgradeHeader request ∧ KeyHeader request key

/-! ## What is accepted -/

/-- What is behind the colon in the first line of the text that begins with "Sec-WebSocket-Key:". -/
def firstKey (request : Bytes) : Option Bytes :=
  ((getlines request).map Prod.fst).findSome? (field (ascii "Sec-WebSocket-Key"))

theorem findKey_eq (request : Bytes) : findKey request = solid ((firstKey request).getD []) := by
  unfold findKey firstKey
  induction getlines request with
  | nil => rfl
  | cons entry entries ih =>
    have hname : ascii "Sec-WebSocket-Key:" = ascii "Sec-WebSocket-Key" ++ [58] := by decide
    rw [List.find?_cons, List.map_cons, List.findSome?_cons]
    by_cases hbegins : ascii "Sec-WebSocket-Key" ++ [58] <+: entry.1
    · have hfield : field (ascii "Sec-WebSocket-Key") entry.1 = some (entry.1.drop 18) := if_pos hbegins
      have hmatch : (ascii "Sec-WebSocket-Key:").isPrefixOf entry.1 = true := by
        rw [hname, List.isPrefixOf_iff_prefix]
        exact hbegins
      rw [hfield, hmatch]
      rfl
    · have hfield : field (ascii "Sec-WebSocket-Key") entry.1 = none := if_neg hbegins
      have hmatch : (ascii "Sec-WebSocket-Key:").isPrefixOf entry.1 = false := by
        rw [hname, Bool.eq_false_iff, ne_eq, List.isPrefixOf_iff_prefix]
        exact hbegins
      rw [hfield, hmatch]
      exact ih

/-- **What is accepted**, and with which key. -/
theorem handshakeKey_iff (request key : Bytes) :
    handshakeKey request = some key ↔ ascii "Upgrade: websocket" <:+: request ∧
      ∃ value, firstKey request = some value ∧ solid value = key ∧ key ≠ [] := by
  unfold handshakeKey
  rw [findKey_eq]
  by_cases hupgrade : ascii "Upgrade: websocket" <:+: request
  · rw [if_neg (not_not.2 hupgrade)]
    cases hfirst : firstKey request with
    | none => simp [solid]
    | some value =>
      by_cases hnil : solid value = []
      · simp [hnil]
      · simp only [Option.getD_some, hnil, if_false, Option.some.injEq, exists_eq_left', hupgrade,
          true_and]
        constructor
        · rintro rfl
          exact ⟨rfl, hnil⟩
        · exact And.left
  · simp [hupgrade]

/-! ## When that is a handshake -/

variable {ι : Type*} [DecidableEq ι] {libs : Libs} {i : ι} {s s' : Shared ι} {p : Pc} {beyond : Bytes}

/-- The thread that reads the request goes on to write the 101 response just when it is a request to
upgrade, and for the key of that. -/
def HandshakeExact (libs : Libs) (i : ι) (s : Shared ι) (request beyond : Bytes) : Prop :=
  ∀ s' p, step libs i s .accepted (.read request beyond) = some (s', p) →
    (∃ key, p = .respond key ∧ Upgrades request key) ∨ p = .done ∧ ∀ key, ¬ Upgrades request key

/-- "Upgrade: websocket", with nothing behind it but white space. -/
def PlainUpgrade (line : Bytes) : Prop :=
  ∃ after, line = ascii "Upgrade: websocket" ++ after ∧ ∀ b ∈ after, isSpace b = true

/-- The same in other letters, or with other white space behind the colon. -/
def RespelledUpgrade (line : Bytes) : Prop :=
  ∃ name before value after, line = name ++ 58 :: (before ++ value ++ after) ∧
    lowercase name = ascii "upgrade" ∧ (∀ b ∈ before, isSpace b = true) ∧
    lowercase value = ascii "websocket" ∧ (∀ b ∈ after, isSpace b = true) ∧
    ¬ (name = ascii "Upgrade" ∧ before = [32] ∧ value = ascii "websocket")

/-- "Upgrade: websocket" in the request line, as a part of another header line, or from the
blank line on. -/
def StrayUpgrade (request : Bytes) : Prop :=
  ascii "Upgrade: websocket" <:+: firstLine request ∨
    (∃ line ∈ headers request, ascii "Upgrade: websocket" <:+: line ∧ ¬ PlainUpgrade line) ∨
      ∃ line ∈ restLines isBlank request, ascii "Upgrade: websocket" <:+: line

/-- A header line with a key, the name in any letter case. -/
def KeyLine (request : Bytes) : Prop :=
  ∃ value, HasHeader (headers request) (ascii "Sec-WebSocket-Key") value ∧ solid value ≠ []

/-- The only Upgrade header is spelled otherwise, and nothing else looks like one. -/
def MissedUpgrade (request : Bytes) : Prop :=
  (∃ line ∈ headers request, RespelledUpgrade line) ∧ (∀ line ∈ headers request, ¬ PlainUpgrade line) ∧
    ¬ StrayUpgrade request ∧ KeyLine request

/-- No header line is an Upgrade header, but something else looks like one. -/
def FalseUpgrade (request : Bytes) : Prop :=
  StrayUpgrade request ∧ (∀ line ∈ headers request, ¬ PlainUpgrade line ∧ ¬ RespelledUpgrade line) ∧
    ∃ value, firstKey request = some value ∧ solid value ≠ []

/-- No line begins with "Sec-WebSocket-Key:", or the first that does has nothing but white space
behind that; the key is in a line spelled otherwise or in a later one. -/
def MissedKey (request : Bytes) : Prop :=
  (∃ line ∈ headers request, PlainUpgrade line ∨ RespelledUpgrade line) ∧ KeyLine request ∧
    ∀ value, firstKey request = some value → solid value = []

/-- The first line that begins with "Sec-WebSocket-Key:" is the request line or stands behind the
header section, and no header line has that key. -/
def FalseKey (request : Bytes) : Prop :=
  ((∃ line ∈ headers request, PlainUpgrade line) ∨ StrayUpgrade request) ∧
    ∃ value, firstKey request = some value ∧ solid value ≠ [] ∧
      (ascii "Sec-WebSocket-Key:" <+: firstLine request ∨
        ∀ line ∈ headers request, ¬ ascii "Sec-WebSocket-Key:" <+: line) ∧
      ∀ v, HasHeader (headers request) (ascii "Sec-WebSocket-Key") v → solid v ≠ solid value

/-- The thread's step. -/
theorem step_accepted (hread : ReadSome request) :
    step libs i s .accepted (.read request beyond) = some (s', p) ↔
      s' = s ∧ match handshakeKey request with
        | some key => p = .respond key
        | none => p = .done := by
  simp only [step, if_pos hread]
  cases handshakeKey request <;> simp [eq_comm]

/-- An accepted request has to be one for that key, and a refused one none. -/
theorem handshakeExact_iff (libs : Libs) (i : ι) (s : Shared ι) (beyond : Bytes) (hread : ReadSome request) :
    HandshakeExact libs i s request beyond ↔
      match handshakeKey request with
      | some key => Upgrades request key
      | none => ∀ key, ¬ Upgrades request key := by
  unfold HandshakeExact
  simp only [step_accepted hread]
  cases handshakeKey request with
  | some key =>
    constructor
    · intro h
      rcases h s _ ⟨rfl, rfl⟩ with ⟨key', hkey, hvalid⟩ | ⟨hdone, -⟩
      · obtain rfl := Pc.respond.inj hkey
        exact hvalid
      · simp at hdone
    · rintro hvalid s' p ⟨-, rfl⟩
      exact .inl ⟨key, rfl, hvalid⟩
  | none =>
    constructor
    · intro h
      rcases h s _ ⟨rfl, rfl⟩ with ⟨key, hkey, -⟩ | ⟨-, hnot⟩
      · simp at hkey
      · exact hnot
    · rintro hnot s' p ⟨-, rfl⟩
      exact .inr ⟨rfl, hnot⟩

/-! ## The headers and the text -/

/-- An Upgrade header is one of the two spellings. -/
theorem upgradeHeader_iff (request : Bytes) :
    UpgradeHeader request ↔ ∃ line ∈ headers request, PlainUpgrade line ∨ RespelledUpgrade line := by
  have hword : ∀ b ∈ ascii "websocket", isSpace b = false := by decide +kernel
  have hname : lowercase (ascii "Upgrade") = ascii "upgrade" := by decide
  constructor
  · rintro ⟨value, ⟨name, hkey, hline⟩, hvalue⟩
    obtain ⟨before, after, hsplit, hbefore, hafter⟩ := exists_trim value
    refine ⟨_, hline, ?_⟩
    by_cases hplain : name = ascii "Upgrade" ∧ before = [32] ∧ trim value = ascii "websocket"
    · obtain ⟨rfl, rfl, htrim⟩ := hplain
      refine .inl ⟨after, ?_, hafter⟩
      rw [htrim] at hsplit
      rw [hsplit]
      rfl
    · exact .inr ⟨name, before, trim value, after, by rw [← hsplit], hkey.trans hname, hbefore, hvalue,
        hafter, hplain⟩
  · rintro ⟨line, hline, ⟨after, rfl, hafter⟩ |
      ⟨name, before, value, after, rfl, hkey, hbefore, hvalue, hafter, -⟩⟩
    · refine ⟨[32] ++ ascii "websocket" ++ after, ⟨ascii "Upgrade", rfl, ?_⟩, ?_⟩
      · exact hline
      · rw [trim_eq (by decide +kernel) hafter hword]
        decide
    · refine ⟨before ++ value ++ after, ⟨name, hkey.trans hname.symm, hline⟩, ?_⟩
      rw [trim_eq hbefore hafter (isSpace_of_lowercase hword hvalue)]
      exact hvalue

/-- Where the text that is searched for stands. -/
theorem upgrade_infix_iff (request : Bytes) : ascii "Upgrade: websocket" <:+: request ↔
    (∃ line ∈ headers request, PlainUpgrade line) ∨ StrayUpgrade request := by
  by_cases hnil : request = []
  · subst hnil
    simp [StrayUpgrade, headers, headLines, restLines, firstLine, getlines, ascii]
  rw [infix_iff_line (by decide) (by decide), lines_eq isBlank hnil, List.exists_mem_cons_iff]
  constructor
  · rintro (hfirst | ⟨line, hmem, hline⟩)
    · exact .inr (.inl hfirst)
    rcases List.mem_append.1 hmem with hhead | hrest
    · by_cases hplain : PlainUpgrade line
      · exact .inl ⟨line, hhead, hplain⟩
      · exact .inr (.inr (.inl ⟨line, hhead, hline, hplain⟩))
    · exact .inr (.inr (.inr ⟨line, hrest, hline⟩))
  · rintro (⟨line, hhead, after, rfl, -⟩ | hfirst | ⟨line, hhead, hline, -⟩ | ⟨line, hrest, hline⟩)
    · exact .inr ⟨_, List.mem_append_left _ hhead, List.infix_append_left⟩
    · exact .inl hfirst
    · exact .inr ⟨line, List.mem_append_left _ hhead, hline⟩
    · exact .inr ⟨line, List.mem_append_right _ hrest, hline⟩

/-- Some key is that of a header. -/
theorem exists_keyHeader (request : Bytes) : (∃ key, KeyHeader request key) ↔ KeyLine request := by
  constructor
  · rintro ⟨key, value, hheader, rfl, hne⟩
    exact ⟨value, hheader, hne⟩
  · rintro ⟨value, hheader, hne⟩
    exact ⟨_, value, hheader, rfl, hne⟩

/-- The first line with the name is that of a header, unless it is not in the header section. -/
theorem firstKey_header (hfirst : firstKey request = some value) :
    HasHeader (headers request) (ascii "Sec-WebSocket-Key") value ∨
      ascii "Sec-WebSocket-Key:" <+: firstLine request ∨
        ∀ line ∈ headers request, ¬ ascii "Sec-WebSocket-Key:" <+: line := by
  have hname : ascii "Sec-WebSocket-Key:" = ascii "Sec-WebSocket-Key" ++ [58] := by decide
  have hnil : request ≠ [] := by
    rintro rfl
    simp [firstKey, getlines] at hfirst
  rw [firstKey, lines_eq isBlank hnil, List.findSome?_cons] at hfirst
  cases hline : field (ascii "Sec-WebSocket-Key") (firstLine request) with
  | some v =>
    refine .inr (.inl ?_)
    rw [field_eq_some.1 hline, hname]
    exact ⟨v, by simp⟩
  | none =>
    rw [hline, List.findSome?_append] at hfirst
    cases hhead : (headLines isBlank request).findSome? (field (ascii "Sec-WebSocket-Key")) with
    | some v =>
      rw [hhead] at hfirst
      obtain rfl := Option.some.inj hfirst
      obtain ⟨line, hmem, hfield⟩ := List.exists_of_findSome?_eq_some hhead
      exact .inl ⟨_, rfl, field_eq_some.1 hfield ▸ hmem⟩
    | none =>
      refine .inr (.inr fun line hmem hbegins => ?_)
      obtain ⟨v, rfl⟩ := hbegins
      have hnone := List.findSome?_eq_none_iff.1 hhead _ hmem
      rw [field_eq_none] at hnone
      exact hnone v (by rw [hname]; simp)

/-! ## The kinds of requests -/

section Accepted

variable (hkey : handshakeKey request = some key)

include hkey

/-- What is accepted is a request to upgrade, unless one of the two texts is that of no header. -/
theorem upgrades_iff : Upgrades request key ↔ ¬ FalseUpgrade request ∧ ¬ FalseKey request := by
  obtain ⟨hin, value, hfirst, rfl, hne⟩ := (handshakeKey_iff request key).1 hkey
  have hsome := (upgrade_infix_iff request).1 hin
  constructor
  · rintro ⟨hupgrade, v, hheader, hsolid, -⟩
    constructor
    · rintro ⟨-, hnone, -⟩
      obtain ⟨line, hmem, hline⟩ := (upgradeHeader_iff request).1 hupgrade
      exact hline.elim (hnone line hmem).1 (hnone line hmem).2
    · rintro ⟨-, value', hfirst', -, -, hother⟩
      obtain rfl := Option.some.inj (hfirst.symm.trans hfirst')
      exact hother v hheader hsolid
  · rintro ⟨hupgrade, hother⟩
    constructor
    · rw [upgradeHeader_iff]
      by_contra hnone
      push Not at hnone
      refine hupgrade ⟨hsome.resolve_left ?_, hnone, value, hfirst, hne⟩
      rintro ⟨line, hmem, hplain⟩
      exact (hnone line hmem).1 hplain
    · by_contra hnot
      have hnone : ∀ v, HasHeader (headers request) (ascii "Sec-WebSocket-Key") v → solid v ≠ solid value :=
        fun v hheader hsolid => hnot ⟨v, hheader, hsolid, hne⟩
      exact hother ⟨hsome, value, hfirst, hne,
        (firstKey_header hfirst).resolve_left fun hheader => hnone value hheader rfl, hnone⟩

theorem not_missed_of_accepted : ¬ MissedUpgrade request ∧ ¬ MissedKey request := by
  obtain ⟨hin, value, hfirst, rfl, hne⟩ := (handshakeKey_iff request key).1 hkey
  constructor
  · rintro ⟨-, hplain, hstray, -⟩
    rcases (upgrade_infix_iff request).1 hin with ⟨line, hmem, hline⟩ | hsome
    · exact hplain line hmem hline
    · exact hstray hsome
  · rintro ⟨-, -, hblank⟩
    exact hne (hblank value hfirst)

end Accepted

section Refused

variable (hkey : handshakeKey request = none)

include hkey

theorem solid_of_refused (hin : ascii "Upgrade: websocket" <:+: request)
    (hfirst : firstKey request = some value) : solid value = [] := by
  by_contra hne
  have hsome := (handshakeKey_iff request _).2 ⟨hin, value, hfirst, rfl, hne⟩
  rw [hkey] at hsome
  simp at hsome

/-- What is refused is no request to upgrade, unless one of the two headers is missed. -/
theorem not_upgrades_iff :
    (∀ key, ¬ Upgrades request key) ↔ ¬ MissedUpgrade request ∧ ¬ MissedKey request := by
  constructor
  · intro hnot
    have hno : UpgradeHeader request → ¬ KeyLine request := fun hupgrade hline =>
      let ⟨key, hheader⟩ := (exists_keyHeader request).2 hline
      hnot key ⟨hupgrade, hheader⟩
    constructor
    · rintro ⟨⟨line, hmem, hrespelled⟩, -, -, hline⟩
      exact hno ((upgradeHeader_iff request).2 ⟨line, hmem, .inr hrespelled⟩) hline
    · rintro ⟨hupgrade, hline, -⟩
      exact hno ((upgradeHeader_iff request).2 hupgrade) hline
  · rintro ⟨hmissed, hmissedKey⟩ key ⟨hupgrade, hheader⟩
    have hlines := (upgradeHeader_iff request).1 hupgrade
    have hkeyLine := (exists_keyHeader request).1 ⟨key, hheader⟩
    by_cases hin : ascii "Upgrade: websocket" <:+: request
    · exact hmissedKey ⟨hlines, hkeyLine, fun value hfirst => solid_of_refused hkey hin hfirst⟩
    · obtain ⟨hplain, hstray⟩ := not_or.1 (mt (upgrade_infix_iff request).2 hin)
      push Not at hplain
      obtain ⟨line, hmem, hline⟩ := hlines
      exact hmissed ⟨⟨line, hmem, hline.resolve_left (hplain line hmem)⟩, hplain, hstray, hkeyLine⟩

theorem not_false_of_refused : ¬ FalseUpgrade request ∧ ¬ FalseKey request := by
  constructor
  · rintro ⟨hstray, -, value, hfirst, hne⟩
    exact hne (solid_of_refused hkey ((upgrade_infix_iff request).2 (.inr hstray)) hfirst)
  · rintro ⟨hin, value, hfirst, hne, -⟩
    exact hne (solid_of_refused hkey ((upgrade_infix_iff request).2 hin) hfirst)

end Refused

/-- **When just the handshakes are accepted**: unless the Upgrade header or the key is spelled
otherwise, or stands where no header is. -/
theorem handshake_iff (libs : Libs) (i : ι) (s : Shared ι) (beyond : Bytes) (hread : ReadSome request) :
    HandshakeExact libs i s request beyond ↔
      ¬ MissedUpgrade request ∧ ¬ FalseUpgrade request ∧ ¬ MissedKey request ∧ ¬ FalseKey request := by
  rw [handshakeExact_iff libs i s beyond hread]
  cases hkey : handshakeKey request with
  | some key =>
    refine (upgrades_iff hkey).trans ?_
    constructor
    · intro h
      exact ⟨(not_missed_of_accepted hkey).1, h.1, (not_missed_of_accepted hkey).2, h.2⟩
    · intro h
      exact ⟨h.2.1, h.2.2.2⟩
  | none =>
    refine (not_upgrades_iff hkey).trans ?_
    constructor
    · intro h
      exact ⟨h.1, (not_false_of_refused hkey).1, h.2, (not_false_of_refused hkey).2⟩
    · intro h
      exact ⟨h.1, h.2.2.1⟩

/-- A handshake as it is commonly written. -/
def plainHandshake : Bytes :=
  ascii "GET / HTTP/1.1\r\nUpgrade: websocket\r\nSec-WebSocket-Key: YWJj\r\n\r\n"

/-- The same with a header name in lower case. -/
def lowerHandshake : Bytes :=
  ascii "GET / HTTP/1.1\r\nupgrade: websocket\r\nSec-WebSocket-Key: YWJj\r\n\r\n"

/-- A request whose body looks like the headers of a handshake. -/
def strayHandshake : Bytes :=
  ascii "POST / HTTP/1.1\r\n\r\nUpgrade: websocket\r\nSec-WebSocket-Key: YWJj\r\n"

theorem upgrades_lower : Upgrades lowerHandshake (ascii "YWJj") := by
  refine ⟨⟨ascii " websocket\r", ⟨ascii "upgrade", by decide, by decide⟩, by decide⟩, ascii " YWJj\r", ?_,
    by decide, by decide⟩
  exact ⟨ascii "Sec-WebSocket-Key", rfl, by decide⟩

theorem handshake_iff_plain :
    HandshakeExact ⟨id, id⟩ (0 : Fin 1) construct plainHandshake [] := by
  have hfirst : firstKey plainHandshake = some (ascii " YWJj\r") := by decide
  have hplain : PlainUpgrade (ascii "Upgrade: websocket\r") :=
    ⟨[13], by decide, by decide +kernel⟩
  have hmem : ascii "Upgrade: websocket\r" ∈ headers plainHandshake := by decide
  refine (handshake_iff ⟨id, id⟩ 0 construct [] (by decide)).2 ⟨fun h => h.2.1 _ hmem hplain,
    fun h => (h.2.1 _ hmem).1 hplain, fun h => absurd (h.2.2 _ hfirst) (by decide), ?_⟩
  rintro ⟨-, value, hvalue, -, -, hother⟩
  obtain rfl := Option.some.inj (hfirst.symm.trans hvalue)
  exact hother _ ⟨ascii "Sec-WebSocket-Key", rfl, by decide⟩ rfl

/-- **A handshake that is refused, and a body that is accepted.** -/
theorem handshake_misread :
    (ReadSome lowerHandshake ∧ ¬ HandshakeExact ⟨id, id⟩ (0 : Fin 1) construct lowerHandshake []) ∧
      ReadSome strayHandshake ∧ ¬ HandshakeExact ⟨id, id⟩ (0 : Fin 1) construct strayHandshake [] := by
  refine ⟨⟨by decide, fun h => ?_⟩, by decide, fun h => ?_⟩
  · have hkey : handshakeKey lowerHandshake = none := by decide
    have hstep := h construct .done ((step_accepted (by decide)).2 ⟨rfl, by rw [hkey]⟩)
    rcases hstep with ⟨key, hdone, -⟩ | ⟨-, hnot⟩
    · cases hdone
    · exact hnot _ upgrades_lower
  · have hkey : handshakeKey strayHandshake = some (ascii "YWJj") := by decide
    have hnone : headers strayHandshake = [] := by decide
    have hstep := h construct (.respond (ascii "YWJj")) ((step_accepted (by decide)).2 ⟨rfl, by rw [hkey]⟩)
    rcases hstep with ⟨key, -, ⟨value, ⟨name, -, hmem⟩, -⟩, -⟩ | ⟨hdone, -⟩
    · rw [hnone] at hmem
      simp at hmem
    · cases hdone

end BackendTasks.WebSocketServer
