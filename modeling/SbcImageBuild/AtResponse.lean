import SbcImageBuild.OverlayContent

/-!
# Responses of the modem

`rm500q_at_send` makes an extended regular expression of the text of a command, and removes from the
response of the modem the lines that match it.
-/
namespace AtResponse

open Delimited ShellText OverlayText

/-- The alternatives behind the command. -/
def okOrEmpty : Text := "|^OK$|^$".toList

/-- The own part of the pattern. -/
def commandPattern (cmd : Text) : Text := "^AT".toList ++ cmd

/-- The command brings an alternative of its own. -/
def Alternates (cmd : Text) : Prop := '|' ∈ cmd ∨ '\n' ∈ cmd

/-- `grep -E`: what a pattern matches, unless it is rejected. A pattern followed by `|` and another
one matches what one of the two matches, and behind `^A` there are only lines with this letter. -/
structure Grep where
  run : Text → Option (Text → Bool)
  alternatives : ∀ {pattern m}, run pattern = some m → ∃ n, run (pattern ++ okOrEmpty) = some n ∧
    ∀ line, n line = (m line || line == "OK".toList || line == [])
  anchored : ∀ {cmd m}, ¬ Alternates cmd → run (commandPattern cmd ++ okOrEmpty) = some m →
    ∀ line, m line → line.head? = some 'A' ∨ line = "OK".toList ∨ line = []

/-- The lines that do not match; there are none if the pattern is rejected. -/
def grepV (g : Grep) (pattern text : Text) : Text :=
  match g.run pattern with
  | some m => terminate '\n' ((records '\n' text).filter fun line => !m line)
  | none => []

/-- `grep -q` with a word. -/
def grepQ (word text : Text) : Bool := (records '\n' text).any fun line => word <:+: line

/-- The builtin `echo` with one argument, which may be an option. -/
def echo (arg : Text) : Text :=
  match arg with
  | '-' :: c :: t =>
    if ∀ d ∈ c :: t, d ∈ ['n', 'e', 'E'] then if 'n' ∈ c :: t then [] else ['\n']
    else arg ++ ['\n']
  | _ => arg ++ ['\n']

/-- What is read from the port until it is closed or the time is over. -/
structure Received where
  text : Text
  timedOut : Bool

structure Sent where
  status : ℕ
  out : Text
  err : Text
  deriving DecidableEq

/-- `rm500q_at_send`. Where `set -e` is in effect, a read that times out ends the shell. -/
def rm500qAtSend (g : Grep) (errexit : Bool) (port : Text) (ready : Bool) (cmd : Text)
    (received : Received) : Sent :=
  if !ready then ⟨1, [], "ERROR: AT port ".toList ++ port ++ " not available\n".toList⟩
  else if errexit && received.timedOut then ⟨124, [], []⟩
  else
    let resp := fileText received.text
    if grepQ "OK".toList (echo resp) then
      ⟨0, grepV g (commandPattern cmd ++ okOrEmpty) (echo resp), []⟩
    else if grepQ "ERROR".toList (echo resp) then
      ⟨1, [], grepV g (commandPattern cmd ++ "|^$".toList) (echo resp)⟩
    else ⟨1, [], "ERROR: timeout or no response\n".toList⟩

/-- Lines that end in CR LF. -/
def crlf (ls : List Text) : Text := terminate '\n' (ls.map (· ++ ['\r']))

/-- The lines of a response that ends in OK. -/
def responseLines (body : List Text) : List Text := body ++ ["OK".toList]

/-- The echo, OK, or an empty line. -/
def Dropped (cmd line : Text) : Prop := line = "AT".toList ++ cmd ∨ line = "OK".toList ∨ line = []

instance (cmd line : Text) : Decidable (Dropped cmd line) :=
  inferInstanceAs (Decidable (_ ∨ _ ∨ _))

/-- The function succeeds and prints the other lines. -/
def ResponseLaw (g : Grep) (errexit : Bool) (port cmd : Text) (body : List Text)
    (timedOut : Bool) : Prop :=
  let sent := rm500qAtSend g errexit port true cmd ⟨crlf (responseLines body), timedOut⟩
  sent.status = 0 ∧
    sent.out = crlf ((responseLines body).filter fun line => ¬ Dropped cmd line)

/-- The lines that a pattern matches with their CR are those to be dropped. -/
def MatchesDropped (m : Text → Bool) (cmd : Text) (ls : List Text) : Prop :=
  ∀ line ∈ ls, m (line ++ ['\r']) ↔ Dropped cmd line

/-- The alternatives of the command make the pattern match the right lines: those for OK and for an
empty line match none that ends in CR. -/
inductive Covered (g : Grep) (cmd : Text) (ls : List Text) : Prop where
  | own {m} : Alternates cmd → g.run (commandPattern cmd) = some m → MatchesDropped m cmd ls →
      Covered g cmd ls
  | joined {m} : Alternates cmd → g.run (commandPattern cmd) = none →
      g.run (commandPattern cmd ++ okOrEmpty) = some m → MatchesDropped m cmd ls →
      Covered g cmd ls
  | rejected : g.run (commandPattern cmd ++ okOrEmpty) = none → (∀ line ∈ ls, Dropped cmd line) →
      Covered g cmd ls

/-- A line of text. -/
def IsLine (line : Text) : Prop := '\n' ∉ line ∧ '\x00' ∉ line

instance (line : Text) : Decidable (IsLine line) := inferInstanceAs (Decidable (_ ∧ _))

section Lines

variable {ls : List Text} {body : List Text}

theorem free_cr (h : ∀ line ∈ ls, IsLine line) : Free '\n' (ls.map (· ++ ['\r'])) := by
  intro r hr
  obtain ⟨line, hline, rfl⟩ := List.mem_map.mp hr
  simp [(h line hline).1]

theorem nul_notMem_crlf (h : ∀ line ∈ ls, IsLine line) : '\x00' ∉ crlf ls := by
  refine terminate_free (by decide) fun r hr => ?_
  obtain ⟨line, hline, rfl⟩ := List.mem_map.mp hr
  simp [(h line hline).2]

theorem records_crlf (h : ∀ line ∈ ls, IsLine line) :
    records '\n' (crlf ls) = ls.map (· ++ ['\r']) := records_terminate (free_cr h)

theorem isLine_response (h : ∀ line ∈ body, IsLine line) :
    ∀ line ∈ responseLines body, IsLine line := by
  intro line hline
  rcases List.mem_append.mp hline with hline | hline
  · exact h line hline
  · rw [List.mem_singleton.mp hline]
    unfold IsLine
    decide

theorem ok_mem : "OK".toList ∈ responseLines body := by simp [responseLines]

theorem echo_plain {arg : Text} {c : Char} (hmem : c ∈ arg) (hc : c ∉ ['-', 'n', 'e', 'E']) :
    echo arg = arg ++ ['\n'] := by
  unfold echo
  split
  · next d t =>
    rw [if_neg]
    intro hall
    rcases List.mem_cons.mp hmem with rfl | hmem
    · exact hc (by decide)
    · exact hc (List.mem_cons_of_mem '-' (hall c hmem))
  · rfl

/-- The command substitution removes the last newline, and `echo` puts it back. -/
theorem echo_response (h : ∀ line ∈ body, IsLine line) :
    echo (fileText (crlf (responseLines body))) = crlf (responseLines body) := by
  have hend : crlf (responseLines body) = (crlf body ++ "OK\r".toList) ++ ['\n'] := by
    simp [crlf, responseLines, terminate, List.flatMap_append]
  have hlast : (crlf body ++ "OK\r".toList).getLast? ≠ some '\n' := by simp
  have hfile : fileText (crlf (responseLines body)) = crlf body ++ "OK\r".toList := by
    rw [fileText, OverlayContent.filter_nul (nul_notMem_crlf (isLine_response h)), hend,
      commandOutput, List.rdropWhile_concat_pos _ _ _ (by simp)]
    exact OverlayPath.commandOutput_eq_self.mpr hlast
  rw [hfile, hend]
  exact echo_plain (List.mem_append_right _ (show '\r' ∈ "OK\r".toList by decide)) (by decide)

theorem crlf_inj {ks : List Text} (hk : ∀ line ∈ ks, IsLine line) (hl : ∀ line ∈ ls, IsLine line) :
    crlf ks = crlf ls ↔ ks = ls := by
  refine ⟨fun h => ?_, fun h => h ▸ rfl⟩
  have hrecords := congrArg (records '\n') h
  rw [records_crlf hk, records_crlf hl] at hrecords
  exact List.map_injective_iff.mpr (List.append_left_injective _) hrecords

theorem filter_eq_filter_iff {p q : Text → Bool} :
    ls.filter p = ls.filter q ↔ ∀ line ∈ ls, p line = q line := by
  refine ⟨fun h line hline => ?_, List.filter_congr⟩
  rw [Bool.eq_iff_iff]
  constructor
  · intro hp
    exact (List.mem_filter.mp (h ▸ List.mem_filter.mpr ⟨hline, hp⟩)).2
  · intro hq
    exact (List.mem_filter.mp (h ▸ List.mem_filter.mpr ⟨hline, hq⟩)).2

end Lines

section Response

variable {g : Grep} {cmd port : Text} {body : List Text} {m : Text → Bool}

theorem grepQ_response (h : ∀ line ∈ body, IsLine line) :
    grepQ "OK".toList (crlf (responseLines body)) := by
  rw [grepQ, records_crlf (isLine_response h), List.any_eq_true]
  refine ⟨"OK\r".toList, ?_, by decide⟩
  simp [responseLines]

/-- The run of the function when nothing ends the shell. -/
theorem atSend_response (h : ∀ line ∈ body, IsLine line) {errexit timedOut : Bool}
    (hread : (errexit && timedOut) = false) :
    rm500qAtSend g errexit port true cmd ⟨crlf (responseLines body), timedOut⟩ =
      ⟨0, grepV g (commandPattern cmd ++ okOrEmpty) (crlf (responseLines body)), []⟩ := by
  have hecho := echo_response h
  have hquiet := grepQ_response h
  unfold rm500qAtSend
  simp only [Bool.not_true, Bool.false_eq_true, if_false, hread, hecho, hquiet, if_true]

/-- What the pattern leaves of the response. -/
theorem grepV_response (h : ∀ line ∈ body, IsLine line)
    (hrun : g.run (commandPattern cmd ++ okOrEmpty) = some m) :
    grepV g (commandPattern cmd ++ okOrEmpty) (crlf (responseLines body)) =
      crlf ((responseLines body).filter fun line => !m (line ++ ['\r'])) := by
  simp only [grepV, hrun, records_crlf (isLine_response h), List.filter_map]
  rfl

/-- The printed lines are the right ones if the pattern matches the others. -/
theorem printed_iff (h : ∀ line ∈ body, IsLine line) :
    crlf ((responseLines body).filter fun line => !m (line ++ ['\r'])) =
      crlf ((responseLines body).filter fun line => ¬ Dropped cmd line) ↔
    MatchesDropped m cmd (responseLines body) := by
  have hsub (p : Text → Bool) : ∀ line ∈ (responseLines body).filter p, IsLine line :=
    fun line hline => isLine_response h line (List.mem_filter.mp hline).1
  rw [crlf_inj (hsub _) (hsub _), filter_eq_filter_iff]
  refine forall₂_congr fun line _ => ?_
  cases m (line ++ ['\r']) <;> simp

theorem crlf_eq_nil {ls : List Text} : crlf ls = [] ↔ ls = [] := by
  cases ls <;> simp [crlf, terminate]

/-- Behind the command the two alternatives match no line that ends in CR. -/
theorem matchesDropped_joined (hrun : g.run (commandPattern cmd) = some m) (ls : List Text) :
    ∃ n, g.run (commandPattern cmd ++ okOrEmpty) = some n ∧
      (MatchesDropped n cmd ls ↔ MatchesDropped m cmd ls) := by
  obtain ⟨n, hn, hline⟩ := g.alternatives hrun
  refine ⟨n, hn, forall₂_congr fun line _ => ?_⟩
  have hok : (line ++ ['\r'] == "OK".toList) = false := by
    rw [beq_eq_false_iff_ne]
    intro heq
    have hend := congrArg List.getLast? heq
    simp at hend
  have hempty : (line ++ ['\r'] == []) = false := by simp
  rw [hline, hok, hempty, Bool.or_false, Bool.or_false]

/-- A rejected pattern leaves nothing. -/
theorem rejected_iff (hrun : g.run (commandPattern cmd ++ okOrEmpty) = none) :
    grepV g (commandPattern cmd ++ okOrEmpty) (crlf (responseLines body)) =
      crlf ((responseLines body).filter fun line => ¬ Dropped cmd line) ↔
    ∀ line ∈ responseLines body, Dropped cmd line := by
  have hnone : grepV g (commandPattern cmd ++ okOrEmpty) (crlf (responseLines body)) = [] := by
    simp only [grepV, hrun]
  rw [hnone, eq_comm, crlf_eq_nil, List.filter_eq_nil_iff]
  simp

theorem covered_rejected (hrun : g.run (commandPattern cmd ++ okOrEmpty) = none) {ls : List Text} :
    Covered g cmd ls ↔ ∀ line ∈ ls, Dropped cmd line := by
  refine ⟨fun hcovered => ?_, .rejected hrun⟩
  cases hcovered with
  | own _ hown _ =>
    obtain ⟨n, hn, -⟩ := g.alternatives hown
    simp [hrun] at hn
  | joined _ _ hjoined _ => simp [hrun] at hjoined
  | rejected _ hall => exact hall

/-- A line OK is matched only through an alternative of the command. -/
theorem alternates_of_matches (hrun : g.run (commandPattern cmd ++ okOrEmpty) = some m)
    {ls : List Text} (hok : "OK".toList ∈ ls) (hmatch : MatchesDropped m cmd ls) :
    Alternates cmd := by
  by_contra hnone
  have hline : m "OK\r".toList := (hmatch _ hok).mpr (.inr (.inl rfl))
  rcases g.anchored hnone hrun _ hline with hhead | hword | hempty
  · exact absurd hhead (by decide)
  · exact absurd hword (by decide)
  · exact absurd hempty (by decide)

theorem covered_joined (hrun : g.run (commandPattern cmd ++ okOrEmpty) = some m)
    {ls : List Text} (hok : "OK".toList ∈ ls) : Covered g cmd ls ↔ MatchesDropped m cmd ls := by
  have hsame {n k : Text → Bool} (hn : g.run (commandPattern cmd ++ okOrEmpty) = some n)
      (hk : g.run (commandPattern cmd ++ okOrEmpty) = some k) : n = k :=
    Option.some.inj (hn.symm.trans hk)
  constructor
  · rintro (⟨_, hown, hmatch⟩ | ⟨_, _, hjoined, hmatch⟩ | ⟨hnone, _⟩)
    · obtain ⟨n, hn, hiff⟩ := matchesDropped_joined hown ls
      rw [hsame hrun hn]
      exact hiff.mpr hmatch
    · rw [hsame hrun hjoined]
      exact hmatch
    · simp [hrun] at hnone
  · intro hmatch
    have halt := alternates_of_matches hrun hok hmatch
    cases hown : g.run (commandPattern cmd) with
    | none => exact .joined halt hown hrun hmatch
    | some k =>
      obtain ⟨n, hn, hiff⟩ := matchesDropped_joined hown ls
      exact .own halt hown (hiff.mp (hsame hrun hn ▸ hmatch))

end Response

/-- The response is filtered as promised exactly if the read does not end the shell and the text of
the command happens to match the right lines. -/
theorem at_response_iff (g : Grep) (errexit timedOut : Bool) (port cmd : Text) {body : List Text}
    (h : ∀ line ∈ body, IsLine line) : ResponseLaw g errexit port cmd body timedOut ↔
      (errexit && timedOut) = false ∧ Covered g cmd (responseLines body) := by
  by_cases hread : (errexit && timedOut) = false
  · simp only [ResponseLaw, atSend_response h hread, hread, true_and]
    cases hrun : g.run (commandPattern cmd ++ okOrEmpty) with
    | none => rw [rejected_iff hrun, covered_rejected hrun]
    | some n => rw [grepV_response h hrun, printed_iff h, covered_joined hrun ok_mem]
  · rw [Bool.not_eq_false] at hread
    simp [ResponseLaw, rm500qAtSend, hread]

/-- The part of `grep -E` without operators other than `|` and the two anchors. -/
def literalMatch (line : Text) : Text → Bool
  | '^' :: t => if t.getLast? = some '$' then line == t.dropLast else t <+: line
  | t => t <:+: line

theorem literalMatch_command {cmd line : Text} (h : literalMatch line (commandPattern cmd)) :
    line.head? = some 'A' := by
  change (if _ then _ else _) = true at h
  split at h
  · rw [beq_iff_eq.mp h]
    rfl
  · obtain ⟨rest, rfl⟩ := of_decide_eq_true h
    rfl

theorem splitOn_alternatives (pattern : Text) :
    (pattern ++ okOrEmpty).splitOn '|' =
      pattern.splitOn '|' ++ ["^OK$".toList, "^$".toList] := by
  have hparts : "^OK$|^$".toList.splitOn '|' = ["^OK$".toList, "^$".toList] := by decide
  rw [← hparts]
  exact List.splitOn_append_cons_self pattern _

theorem literalMatch_okOrEmpty (line : Text) :
    ["^OK$".toList, "^$".toList].any (literalMatch line) =
      (line == "OK".toList || line == []) := by
  simp [literalMatch]

def literalGrep : Grep where
  run pattern := some fun line => (pattern.splitOn '|').any (literalMatch line)
  alternatives := by
    rintro pattern m ⟨⟩
    refine ⟨_, rfl, fun line => ?_⟩
    rw [splitOn_alternatives, List.any_append, literalMatch_okOrEmpty, Bool.or_assoc]
  anchored := by
    rintro cmd m hcmd ⟨⟩ line hline
    have hsingle : (commandPattern cmd).splitOn '|' = [commandPattern cmd] := by
      refine List.splitOn_eq_singleton fun hmem => hcmd (.inl ?_)
      simpa [commandPattern] using hmem
    simp only [splitOn_alternatives, List.any_append] at hline
    rw [literalMatch_okOrEmpty, hsingle, List.any_cons, List.any_nil, Bool.or_false] at hline
    rcases Bool.or_eq_true_iff.mp hline with hcommand | hrest
    · exact .inl (literalMatch_command hcommand)
    · exact .inr (by simpa using hrest)

/-- A command with an alternative that matches the line OK with its CR. -/
theorem at_response_identification :
    ResponseLaw literalGrep true "/dev/mhi_DUN".toList "I|OK|X".toList
      ["Quectel".toList, "RM500Q-GL".toList] false := by
  refine (at_response_iff literalGrep true false _ _ (by decide)).mpr ⟨rfl, ?_⟩
  refine .own (.inl ?_) rfl ?_
  · decide
  · unfold MatchesDropped
    decide

/-- What the modem says to `ATI`. -/
def identification : List Text :=
  ["ATI".toList, [], "Quectel".toList, "RM500Q-GL".toList, []]

/-- The line OK and the empty lines are printed. -/
theorem ok_printed : ¬ ResponseLaw literalGrep true "/dev/mhi_DUN".toList "I".toList
    identification false := by
  unfold ResponseLaw
  decide +kernel

end AtResponse
