import Kist.Lib.Decimal
import Kist.Lib.Text

/-!
# Repository locations

`RepoLocation` of `kist-backend`: the string that names a repository is read as a local path or as a
URL of one of three kinds, and a location is shown as a string again. The name of the local index
cache of a repository is made of that string.

`RepoLocation.parse_display_iff` says which strings are read, shown and read again as the same
location. A path is compared as a string here, which tells more paths apart than `PathBuf` does.
-/

namespace Kist

open Text

/-- `BackendError`, the case that reading a location raises. -/
inductive BackendError
  | invalidUrl (s : List Char)
  deriving DecidableEq, Repr

/-- `SftpConfig`. -/
structure SftpConfig where
  user : Option (List Char)
  host : List Char
  port : ℕ
  path : List Char
  deriving DecidableEq, Repr

/-- `RcloneConfig`. -/
structure RcloneConfig where
  remote : List Char
  path : List Char
  deriving DecidableEq, Repr

/-- `RepoLocation`. -/
inductive RepoLocation
  | local_ (path : List Char)
  | s3 (bucket prefix_ : List Char)
  | sftp (config : SftpConfig)
  | rclone (config : RcloneConfig)
  deriving DecidableEq, Repr

/-- The schemes of the URLs. -/
def s3Scheme : List Char := "s3://".toList

def sftpScheme : List Char := "sftp://".toList

def rcloneScheme : List Char := "rclone://".toList

theorem s3Scheme_eq : s3Scheme = ['s', '3', ':', '/', '/'] := by decide

theorem sftpScheme_eq : sftpScheme = ['s', 'f', 't', 'p', ':', '/', '/'] := by decide

theorem rcloneScheme_eq :
    rcloneScheme = ['r', 'c', 'l', 'o', 'n', 'e', ':', '/', '/'] := by decide

/-! ### SFTP -/

/-- `str::parse::<u16>`: decimal digits, also behind a plus sign. -/
def parseU16 (s : List Char) : Option ℕ :=
  let digits := if s.head? = some '+' then s.tail else s
  (Decimal.ofDigits digits).filter fun n => n < 2 ^ 16

/-- The user of an SFTP URL and what follows it. Only an `@` before the first `/` ends a user. -/
def splitUser (rest : List Char) : Option (Option (List Char) × List Char) :=
  match splitOnce '@' (before '/' rest) with
  | some (u, hp) =>
    if u = [] ∨ ':' ∈ u ∨ '@' ∈ hp then none else some (some u, rest.drop (u.length + 1))
  | none => some (none, rest)

/-- The port and the path behind a host in brackets. -/
def splitTail : List Char → Option (List Char) × List Char
  | ':' :: rest =>
    match splitOnce '/' rest with
    | some (p, path) => (some p, path)
    | none => (some rest, [])
  | tail =>
    match splitOnce '/' tail with
    | some (_, path) => (none, path)
    | none => (none, tail)

/-- The host, the port and the path of an SFTP URL. -/
def splitHost (hostport : List Char) : Option (List Char × Option (List Char) × List Char) :=
  match hostport with
  | '[' :: stripped =>
    (splitOnce ']' stripped).map fun parts => (parts.1, splitTail parts.2)
  | _ =>
    let parts := (splitOnce '/' hostport).getD (hostport, [])
    match splitOnce ':' parts.1 with
    | some (h, p) => some (h, some p, parts.2)
    | none => some (parts.1, none, parts.2)

/-- The number of a port, which is not 0. -/
def portNumber : Option (List Char) → Option ℕ
  | none => some 22
  | some p => (parseU16 p).filter fun n => n ≠ 0

/-- `parse_sftp_url`. -/
def parseSftpUrl (s : List Char) : Except BackendError SftpConfig :=
  let parsed : Option SftpConfig := do
    let rest ← stripPrefix sftpScheme s
    let (user, hostport) ← splitUser rest
    let (host, portStr, path) ← splitHost hostport
    if host = [] ∨ path = [] then none
    let port ← portNumber portStr
    return ⟨user, host, port, path⟩
  match parsed with
  | some config => .ok config
  | none => .error (.invalidUrl s)

/-! ### Rclone -/

/-- `valid_remote_name`. -/
def validRemoteName (remote : List Char) : Bool :=
  remote = [] ∨ (remote.head? ≠ some '-' ∧
    remote.all fun c => c.isAlphanum || c = '-' || c = '_' || c = '.')

/-- `char::is_control`. -/
def isControl (c : Char) : Bool := c.toNat < 32 || (127 ≤ c.toNat && c.toNat < 160)

/-- `parse_rclone_url`. -/
def parseRcloneUrl (s : List Char) : Except BackendError RcloneConfig :=
  match stripPrefix rcloneScheme s with
  | none => .error (.invalidUrl s)
  | some rest =>
    let parts := (splitOnce '/' rest).getD (rest, [])
    if parts.2 = [] ∨ ¬validRemoteName parts.1 ∨ parts.2.any isControl then .error (.invalidUrl s)
    else .ok ⟨parts.1, trimMatches '/' parts.2⟩

/-! ### Locations -/

namespace RepoLocation

/-- `RepoLocation::parse`. -/
def parse (s : List Char) : Except BackendError RepoLocation :=
  match stripPrefix s3Scheme s with
  | some rest =>
    let parts := (splitOnce '/' rest).getD (rest, [])
    if parts.1 = [] then .error (.invalidUrl s)
    else .ok (.s3 parts.1 (trimMatches '/' parts.2))
  | none =>
    if sftpScheme <+: s then (parseSftpUrl s).map sftp
    else if rcloneScheme <+: s then (parseRcloneUrl s).map rclone
    else if "://".toList <:+: s ∨ s = [] then .error (.invalidUrl s)
    else .ok (.local_ s)

/-- A host as it is shown: in brackets if there is a colon in it. -/
def displayHost (host : List Char) : List Char :=
  if ':' ∈ host then '[' :: host ++ [']'] else host

/-- `Display`. -/
def display : RepoLocation → List Char
  | .local_ path => path
  | .s3 bucket prefix_ =>
    if prefix_ = [] then s3Scheme ++ bucket else s3Scheme ++ bucket ++ '/' :: prefix_
  | .sftp c =>
    let user := c.user.elim [] fun u => u ++ ['@']
    let port := if c.port = 22 then [] else ':' :: Nat.toDigits 10 c.port
    sftpScheme ++ user ++ displayHost c.host ++ port ++ '/' :: c.path
  | .rclone c =>
    if c.remote = [] then rcloneScheme ++ '/' :: c.path
    else rcloneScheme ++ c.remote ++ '/' :: c.path

/-! ### What is lost -/

/-- The host of an SFTP URL lies in brackets that are not shown: there is no colon in it, and
without them it is not read as a host. -/
def LosesBrackets (s : List Char) : Prop :=
  ∃ rest user host tail, s = sftpScheme ++ rest ∧
    splitUser rest = some (user, '[' :: host ++ ']' :: tail) ∧ ']' ∉ host ∧ ':' ∉ host ∧
      ('/' ∈ host ∨ host.head? = some '[')

/-- The path of an rclone URL is made of slashes. -/
def LosesPath (s : List Char) : Prop :=
  ∃ remote slashes, s = rcloneScheme ++ remote ++ '/' :: slashes ∧ '/' ∉ remote ∧
    ∀ c ∈ slashes, c = '/'

end RepoLocation

/-! ### Reading an SFTP URL -/

section Sftp

variable {s rest hostport host path tail : List Char} {user portStr : Option (List Char)}
  {port : ℕ} {c : SftpConfig}

theorem parseSftpUrl_ok_iff : parseSftpUrl s = .ok c ↔ ∃ rest hostport portStr,
    s = sftpScheme ++ rest ∧ splitUser rest = some (c.user, hostport) ∧
      splitHost hostport = some (c.host, portStr, c.path) ∧ c.host ≠ [] ∧ c.path ≠ [] ∧
        portNumber portStr = some c.port := by
  obtain ⟨user, host, port, path⟩ := c
  unfold parseSftpUrl
  dsimp only
  constructor
  · intro h
    split at h
    · next config hparsed =>
      cases h
      obtain ⟨rest, hrest, hparsed⟩ := Option.bind_eq_some_iff.1 hparsed
      obtain ⟨⟨user', hostport⟩, huser, hparsed⟩ := Option.bind_eq_some_iff.1 hparsed
      obtain ⟨⟨host', portStr, path'⟩, hhost, hparsed⟩ := Option.bind_eq_some_iff.1 hparsed
      dsimp only at hparsed
      split_ifs at hparsed with hempty
      · cases hparsed
      · rw [not_or] at hempty
        cases hport : portNumber portStr with
        | none =>
          rw [hport] at hparsed
          cases hparsed
        | some port' =>
          rw [hport] at hparsed
          cases hparsed
          exact ⟨rest, hostport, portStr, stripPrefix_eq_some.1 hrest, huser, hhost, hempty.1,
            hempty.2, hport⟩
    · cases h
  · rintro ⟨rest, hostport, portStr, rfl, huser, hhost, hne, hne', hport⟩
    rw [stripPrefix_append]
    simp [huser, hhost, hne, hne', hport]

/-- The text of the user of an SFTP URL. -/
def userText (user : Option (List Char)) : List Char := user.elim [] fun u => u ++ ['@']

/-- What may stand as a user. -/
def UserOk (user : Option (List Char)) : Prop :=
  ∀ u ∈ user, u ≠ [] ∧ ':' ∉ u ∧ '@' ∉ u ∧ '/' ∉ u

/-- The user is what is shown of it in front of the rest, which has no other `@` that could end
one. -/
theorem splitUser_eq_some : splitUser rest = some (user, hostport) ↔
    rest = userText user ++ hostport ∧ '@' ∉ before '/' hostport ∧ UserOk user := by
  unfold splitUser
  constructor
  · intro h
    split at h
    · next u hp hsplit =>
      split_ifs at h with hbad
      cases h
      push Not at hbad
      obtain ⟨hne, hcolon, hat⟩ := hbad
      obtain ⟨hbefore, hu⟩ := splitOnce_eq_some.1 hsplit
      have hslash : '/' ∉ u ++ '@' :: hp := hbefore ▸ notMem_before
      have hrest : rest = u ++ '@' :: (hp ++ rest.dropWhile fun x => x ≠ '/') := by
        conv_lhs => rw [← before_append_dropWhile '/' rest, hbefore]
        simp
      have hdrop : rest.drop (u.length + 1) = hp ++ rest.dropWhile fun x => x ≠ '/' := by
        conv_lhs => rw [hrest]
        simp
      refine ⟨?_, ?_, ?_⟩
      · rw [hdrop, userText, Option.elim_some, List.append_assoc]
        exact hrest
      · rw [hdrop, before_append (fun h => hslash (by simp [h])), before_dropWhile, List.append_nil]
        exact hat
      · rintro _ ⟨⟩
        exact ⟨hne, hcolon, hu, fun h => hslash (by simp [h])⟩
    · next hnone =>
      cases h
      exact ⟨rfl, splitOnce_eq_none.1 hnone, nofun⟩
  · rintro ⟨rfl, hat, hok⟩
    cases user with
    | none => rw [userText, Option.elim_none, List.nil_append, splitOnce_eq_none.2 hat]
    | some u =>
      obtain ⟨hne, hcolon, hu, hslash⟩ := hok u rfl
      have hbefore : before '/' (userText (some u) ++ hostport) =
          u ++ '@' :: before '/' hostport := by
        rw [userText, Option.elim_some, before_append (by simp [hslash]), List.append_assoc]
        rfl
      rw [hbefore, splitOnce_append hu]
      simp [hne, hcolon, hat, userText]

/-- The text of a port of an SFTP URL. -/
def portText (port : ℕ) : List Char := if port = 22 then [] else ':' :: Nat.toDigits 10 port

theorem notMem_toDigits {n : ℕ} {x : Char} (h : x.isDigit = false) : x ∉ Nat.toDigits 10 n :=
  fun hx => by
    rw [Nat.isDigit_of_mem_toDigits (by norm_num) (by norm_num) hx] at h
    cases h

theorem portNumber_lt (h : portNumber portStr = some port) : 0 < port ∧ port < 2 ^ 16 := by
  unfold portNumber at h
  split at h
  · cases h
    norm_num
  · obtain ⟨h, hne⟩ := Option.filter_eq_some_iff.1 h
    obtain ⟨-, hlt⟩ := Option.filter_eq_some_iff.1 h
    exact ⟨Nat.pos_of_ne_zero (by simpa using hne), by simpa using hlt⟩

/-- A port that is shown is read. -/
theorem parseU16_toDigits (h : port < 2 ^ 16) : parseU16 (Nat.toDigits 10 port) = some port := by
  have hplus : (Nat.toDigits 10 port).head? ≠ some '+' := fun hhead =>
    notMem_toDigits rfl (List.mem_of_head? hhead)
  rw [parseU16, if_neg hplus, Decimal.ofDigits_toDigits]
  exact Option.filter_eq_some_iff.2 ⟨rfl, by simpa using h⟩

/-- What follows a host as it is shown. -/
theorem splitTail_portText (h0 : 0 < port) (hlt : port < 2 ^ 16) :
    ∃ portStr, splitTail (portText port ++ '/' :: path) = (portStr, path) ∧
      portNumber portStr = some port := by
  unfold portText
  split_ifs with h22
  · exact ⟨none, rfl, congrArg some h22.symm⟩
  · refine ⟨some (Nat.toDigits 10 port), ?_, ?_⟩
    · rw [List.cons_append, splitTail, splitOnce_append (notMem_toDigits rfl)]
    · rw [portNumber, parseU16_toDigits hlt]
      exact Option.filter_eq_some_iff.2 ⟨rfl, by simpa using h0.ne'⟩

theorem splitHost_bracket (h : ']' ∉ host) :
    splitHost ('[' :: host ++ ']' :: tail) = some (host, splitTail tail) := by
  rw [List.cons_append, splitHost, splitOnce_append h]
  rfl

/-- Without brackets. -/
theorem splitHost_of_head (h : hostport.head? ≠ some '[') : splitHost hostport =
    let parts := (splitOnce '/' hostport).getD (hostport, [])
    match splitOnce ':' parts.1 with
    | some (h, p) => some (h, some p, parts.2)
    | none => some (parts.1, none, parts.2) := by
  unfold splitHost
  split
  · exact absurd rfl h
  · rfl

theorem splitHost_plain (hslash : '/' ∉ host) (hcolon : ':' ∉ host) (hne : host ≠ [])
    (hhead : host.head? ≠ some '[') (h0 : 0 < port) (hlt : port < 2 ^ 16) :
    ∃ portStr, splitHost (host ++ (portText port ++ '/' :: path)) = some (host, portStr, path) ∧
      portNumber portStr = some port := by
  have hfirst : (host ++ (portText port ++ '/' :: path)).head? ≠ some '[' := by
    rwa [List.head?_append_of_ne_nil _ hne]
  rw [splitHost_of_head hfirst]
  unfold portText
  split_ifs with h22
  · refine ⟨none, ?_, congrArg some h22.symm⟩
    rw [List.nil_append, splitOnce_append hslash]
    dsimp only [Option.getD_some]
    rw [splitOnce_eq_none.2 hcolon]
  · refine ⟨some (Nat.toDigits 10 port), ?_, ?_⟩
    · have hdigits : '/' ∉ host ++ ':' :: Nat.toDigits 10 port := by
        simp [hslash, @notMem_toDigits port '/' rfl]
      rw [← List.append_assoc, splitOnce_append hdigits]
      dsimp only [Option.getD_some]
      rw [splitOnce_append hcolon]
    · rw [portNumber, parseU16_toDigits hlt]
      exact Option.filter_eq_some_iff.2 ⟨rfl, by simpa using h0.ne'⟩

/-- A host lay in brackets, or there is neither a separator nor a bracket at its front. -/
theorem splitHost_cases (h : splitHost hostport = some (host, portStr, path)) :
    (∃ tail, hostport = '[' :: host ++ ']' :: tail ∧ ']' ∉ host) ∨
      (hostport.head? ≠ some '[' ∧ '/' ∉ host ∧ ':' ∉ host ∧ ∃ more, hostport = host ++ more) := by
  by_cases hhead : hostport.head? = some '['
  · left
    obtain ⟨stripped, rfl⟩ : ∃ stripped, hostport = '[' :: stripped := by
      cases hostport with
      | nil => cases hhead
      | cons x xs =>
        cases hhead
        exact ⟨xs, rfl⟩
    rw [splitHost, Option.map_eq_some_iff] at h
    obtain ⟨⟨v6, tail⟩, hsplit, heq⟩ := h
    obtain ⟨rfl, -⟩ := Prod.mk.inj heq
    obtain ⟨rfl, hnot⟩ := splitOnce_eq_some.1 hsplit
    exact ⟨tail, rfl, hnot⟩
  · right
    rw [splitHost_of_head hhead] at h
    have hpart : ∃ more, hostport = ((splitOnce '/' hostport).getD (hostport, [])).1 ++ more ∧
        '/' ∉ ((splitOnce '/' hostport).getD (hostport, [])).1 := by
      cases hsplit : splitOnce '/' hostport with
      | none => exact ⟨[], (List.append_nil _).symm, splitOnce_eq_none.1 hsplit⟩
      | some parts =>
        obtain ⟨heq, hnot⟩ := splitOnce_eq_some.1 hsplit
        exact ⟨'/' :: parts.2, heq, hnot⟩
    obtain ⟨more, hmore, hslash⟩ := hpart
    generalize (splitOnce '/' hostport).getD (hostport, []) = parts at h hmore hslash
    dsimp only at h
    cases hsplit : splitOnce ':' parts.1 with
    | none =>
      rw [hsplit] at h
      cases h
      exact ⟨hhead, hslash, splitOnce_eq_none.1 hsplit, more, hmore⟩
    | some hp =>
      rw [hsplit] at h
      cases h
      obtain ⟨heq, hnot⟩ := splitOnce_eq_some.1 hsplit
      rw [heq] at hslash
      refine ⟨hhead, fun hmem => hslash (by simp [hmem]), hnot, ':' :: hp.2 ++ more, ?_⟩
      rw [hmore, heq]
      simp

/-! ### Showing an SFTP location -/

theorem display_sftp (c : SftpConfig) : (RepoLocation.sftp c).display = sftpScheme ++
    (userText c.user ++
      (RepoLocation.displayHost c.host ++ (portText c.port ++ '/' :: c.path))) := by
  show sftpScheme ++ userText c.user ++ RepoLocation.displayHost c.host ++ portText c.port ++
    '/' :: c.path = _
  simp only [List.append_assoc]

/-- What reading leaves in a configuration. -/
structure SftpConfig.Read (c : SftpConfig) : Prop where
  user : UserOk c.user
  host_ne : c.host ≠ []
  path_ne : c.path ≠ []
  port_pos : 0 < c.port
  port_lt : c.port < 2 ^ 16
  at_ : '@' ∉ before '/' c.host

/-- A host that stood in brackets, or that stands without them. -/
structure SftpConfig.Plain (c : SftpConfig) : Prop where
  slash : '/' ∉ c.host
  colon : ':' ∉ c.host
  head : c.host.head? ≠ some '['

theorem read_of_splitHost (huser : splitUser rest = some (c.user, hostport))
    (hhost : splitHost hostport = some (c.host, portStr, c.path)) (hne : c.host ≠ [])
    (hne' : c.path ≠ []) (hport : portNumber portStr = some c.port) : c.Read := by
  obtain ⟨-, hat, hok⟩ := splitUser_eq_some.1 huser
  obtain ⟨h0, hlt⟩ := portNumber_lt hport
  refine ⟨hok, hne, hne', h0, hlt, fun hmem => hat ?_⟩
  rcases splitHost_cases hhost with ⟨tail, rfl, -⟩ | ⟨-, -, -, more, rfl⟩
  · have hbracket : '/' ∉ ['['] := by decide
    show '@' ∈ before '/' (['['] ++ (c.host ++ ']' :: tail))
    rw [before_append hbracket]
    exact List.mem_append_right _ (mem_before_append_left hmem)
  · exact mem_before_append_left hmem

/-- The `@` of a host cannot end a user when the host is shown. -/
theorem SftpConfig.Read.notMem_before (h : c.Read) :
    '@' ∉ before '/' (RepoLocation.displayHost c.host ++ (portText c.port ++ '/' :: c.path)) := by
  intro hmem
  rcases mem_before_append hmem with hmem | hmem
  · unfold RepoLocation.displayHost at hmem
    split_ifs at hmem
    · rcases mem_before_append (show '@' ∈ before '/' (['['] ++ (c.host ++ [']'])) from hmem)
        with hmem | hmem
      · exact absurd hmem (by decide)
      · rcases mem_before_append hmem with hmem | hmem
        · exact h.at_ hmem
        · exact absurd hmem (by decide)
    · exact h.at_ hmem
  · rcases mem_before_append hmem with hmem | hmem
    · have hport := mem_of_mem_before hmem
      unfold portText at hport
      split_ifs at hport
      · cases hport
      · rcases List.mem_cons.1 hport with hport | hport
        · cases hport
        · exact notMem_toDigits rfl hport
    · rw [before_cons_self] at hmem
      cases hmem

/-- **Shown and read again.** A host that is shown in brackets, and one that needs none. -/
theorem parseSftpUrl_display (h : c.Read) (hhost : (':' ∈ c.host ∧ ']' ∉ c.host) ∨ c.Plain) :
    parseSftpUrl (RepoLocation.sftp c).display = .ok c := by
  rw [parseSftpUrl_ok_iff, display_sftp]
  have huser := splitUser_eq_some.2 ⟨rfl, h.notMem_before, h.user⟩
  obtain ⟨portStr, hsplit, hport⟩ : ∃ portStr, splitHost (RepoLocation.displayHost c.host ++
      (portText c.port ++ '/' :: c.path)) = some (c.host, portStr, c.path) ∧
        portNumber portStr = some c.port := by
    unfold RepoLocation.displayHost
    rcases hhost with ⟨hcolon, hbracket⟩ | hplain
    · obtain ⟨portStr, htail, hport⟩ := @splitTail_portText c.path c.port h.port_pos h.port_lt
      refine ⟨portStr, ?_, hport⟩
      have hsplit := @splitHost_bracket c.host (portText c.port ++ '/' :: c.path) hbracket
      rw [htail] at hsplit
      rw [if_pos hcolon, ← hsplit]
      simp
    · rw [if_neg hplain.colon]
      exact splitHost_plain hplain.slash hplain.colon h.host_ne hplain.head h.port_pos h.port_lt
  exact ⟨_, _, portStr, rfl, huser, hsplit, h.host_ne, h.path_ne, hport⟩

/-- A host that needs brackets and is shown without them is not read again. -/
theorem parseSftpUrl_display_ne (h : c.Read) (hcolon : ':' ∉ c.host)
    (hbad : '/' ∈ c.host ∨ c.host.head? = some '[') :
    parseSftpUrl (RepoLocation.sftp c).display ≠ .ok c := by
  rw [Ne, parseSftpUrl_ok_iff, display_sftp, RepoLocation.displayHost, if_neg hcolon]
  rintro ⟨rest, hostport, portStr, hrest, huser, hhost, -⟩
  obtain rfl := List.append_cancel_left hrest
  have hsame := List.append_cancel_left (splitUser_eq_some.1 huser).1
  have hfirst : hostport.head? = c.host.head? := by
    rw [← hsame, List.head?_append_of_ne_nil _ h.host_ne]
  obtain ⟨y, ys, hy, hyne⟩ : ∃ y ys, portText c.port ++ '/' :: c.path = y :: ys ∧ y ≠ '[' := by
    unfold portText
    split_ifs
    · exact ⟨_, _, rfl, by decide⟩
    · exact ⟨_, _, rfl, by decide⟩
  rcases splitHost_cases hhost with ⟨tail, heq, -⟩ | ⟨hhead, hslash, -, -⟩
  · -- the bracket that the host begins with would be the one around it
    rw [← hsame, hy] at heq
    have hcut := congrArg (List.take (c.host.length + 1)) heq
    have hcount := congrArg (List.count '[') hcut
    simp only [List.take_append] at hcount
    simp [hyne, List.take_of_length_le (Nat.le_succ c.host.length)] at hcount
  · rcases hbad with hbad | hbad
    · exact hslash hbad
    · exact hhead (hfirst.trans hbad)

end Sftp

/-! ### Locations -/

namespace RepoLocation

variable {s : List Char} {loc : RepoLocation}

theorem not_s3_prefix_sftp {rest : List Char} : ¬s3Scheme <+: sftpScheme ++ rest := fun h => by
  rw [s3Scheme_eq, sftpScheme_eq] at h
  simp only [List.cons_append, List.cons_prefix_cons] at h
  exact absurd h.2.1 (by decide)

theorem not_s3_prefix_rclone {rest : List Char} : ¬s3Scheme <+: rcloneScheme ++ rest := fun h => by
  rw [s3Scheme_eq, rcloneScheme_eq] at h
  simp only [List.cons_append, List.cons_prefix_cons] at h
  exact absurd h.1 (by decide)

theorem not_sftp_prefix_s3 {rest : List Char} : ¬sftpScheme <+: s3Scheme ++ rest := fun h => by
  rw [s3Scheme_eq, sftpScheme_eq] at h
  simp only [List.cons_append, List.cons_prefix_cons] at h
  exact absurd h.2.1 (by decide)

theorem not_rclone_prefix_s3 {rest : List Char} : ¬rcloneScheme <+: s3Scheme ++ rest := fun h => by
  rw [s3Scheme_eq, rcloneScheme_eq] at h
  simp only [List.cons_append, List.cons_prefix_cons] at h
  exact absurd h.1 (by decide)

theorem not_rclone_prefix_sftp {rest : List Char} :
    ¬rcloneScheme <+: sftpScheme ++ rest := fun h => by
  rw [sftpScheme_eq, rcloneScheme_eq] at h
  simp only [List.cons_append, List.cons_prefix_cons] at h
  exact absurd h.1 (by decide)

theorem not_sftp_prefix_rclone {rest : List Char} :
    ¬sftpScheme <+: rcloneScheme ++ rest := fun h => by
  rw [sftpScheme_eq, rcloneScheme_eq] at h
  simp only [List.cons_append, List.cons_prefix_cons] at h
  exact absurd h.1 (by decide)

theorem parse_sftp (rest : List Char) :
    parse (sftpScheme ++ rest) = (parseSftpUrl (sftpScheme ++ rest)).map sftp := by
  rw [parse, stripPrefix_eq_none not_s3_prefix_sftp]
  exact if_pos (List.prefix_append _ _)

theorem parse_rclone (rest : List Char) :
    parse (rcloneScheme ++ rest) = (parseRcloneUrl (rcloneScheme ++ rest)).map rclone := by
  rw [parse, stripPrefix_eq_none not_s3_prefix_rclone]
  exact (if_neg not_sftp_prefix_rclone).trans (if_pos (List.prefix_append _ _))

/-- A location of S3 is read again. -/
theorem parse_display_s3 {bucket rest : List Char} (hne : bucket ≠ []) (hslash : '/' ∉ bucket) :
    parse (s3 bucket (trimMatches '/' rest)).display = .ok (s3 bucket (trimMatches '/' rest)) := by
  unfold display
  dsimp only
  split_ifs with hnil
  · rw [parse, stripPrefix_append]
    dsimp only
    rw [splitOnce_eq_none.2 hslash, hnil]
    exact if_neg hne
  · rw [parse, List.append_assoc, stripPrefix_append]
    dsimp only
    rw [splitOnce_append hslash]
    dsimp only [Option.getD_some]
    rw [if_neg hne, trimMatches_idem]

theorem validRemoteName_slash {remote : List Char} (h : validRemoteName remote) : '/' ∉ remote := by
  intro hmem
  rcases of_decide_eq_true h with rfl | ⟨-, hall⟩
  · cases hmem
  · exact absurd (List.all_eq_true.1 hall _ hmem) (by decide)

theorem display_rclone (remote path : List Char) :
    (rclone ⟨remote, path⟩).display = rcloneScheme ++ (remote ++ '/' :: path) := by
  unfold display
  dsimp only
  split_ifs with h
  · rw [h, List.nil_append]
  · rw [List.append_assoc]

theorem parse_display_rclone_eq {remote path : List Char} (h : '/' ∉ remote) :
    parse (rclone ⟨remote, path⟩).display =
      if path = [] ∨ ¬validRemoteName remote ∨ path.any isControl then
        .error (.invalidUrl (rclone ⟨remote, path⟩).display)
      else .ok (rclone ⟨remote, trimMatches '/' path⟩) := by
  rw [display_rclone, parse_rclone, parseRcloneUrl, stripPrefix_append]
  dsimp only
  rw [splitOnce_append h]
  dsimp only [Option.getD_some]
  split_ifs <;> rfl

/-- A location of rclone is read again unless nothing is left of its path. -/
theorem parse_display_rclone {remote path : List Char} (hvalid : validRemoteName remote)
    (hcontrol : ¬path.any isControl) :
    parse (rclone ⟨remote, trimMatches '/' path⟩).display =
      .ok (rclone ⟨remote, trimMatches '/' path⟩) ↔ trimMatches '/' path ≠ [] := by
  rw [parse_display_rclone_eq (validRemoteName_slash hvalid), trimMatches_idem]
  have hcontrol' : ¬(trimMatches '/' path).any isControl := fun h => hcontrol <| by
    obtain ⟨x, hx, hxc⟩ := List.any_eq_true.1 h
    exact List.any_eq_true.2 ⟨x, trimMatches_subset hx, hxc⟩
  constructor
  · intro h hnil
    rw [if_pos (.inl hnil)] at h
    cases h
  · intro hne
    rw [if_neg]
    simp [hne, hvalid, hcontrol']

theorem not_losesPath_of_other {rest : List Char} (h : ¬rcloneScheme <+: rest) :
    ¬LosesPath rest := by
  rintro ⟨remote, slashes, rfl, -⟩
  rw [List.append_assoc] at h
  exact h (List.prefix_append _ _)

theorem not_losesBrackets_of_other {rest : List Char} (h : ¬sftpScheme <+: rest) :
    ¬LosesBrackets rest := by
  rintro ⟨rest', -, -, -, rfl, -⟩
  exact h (List.prefix_append _ _)

/-- Which hosts of SFTP URLs lose their brackets. -/
theorem losesBrackets_iff {rest hostport host path : List Char}
    {user portStr : Option (List Char)} (huser : splitUser rest = some (user, hostport))
    (hhost : splitHost hostport = some (host, portStr, path)) :
    LosesBrackets (sftpScheme ++ rest) ↔
      ':' ∉ host ∧ ('/' ∈ host ∨ host.head? = some '[') := by
  constructor
  · rintro ⟨rest', user', host', tail, hrest, huser', hnot, hcolon, hbad⟩
    obtain rfl := List.append_cancel_left hrest
    rw [huser] at huser'
    cases huser'
    rw [splitHost_bracket hnot] at hhost
    obtain ⟨rfl, -⟩ := Prod.mk.inj (Option.some.inj hhost)
    exact ⟨hcolon, hbad⟩
  · rintro ⟨hcolon, hbad⟩
    rcases splitHost_cases hhost with ⟨tail, rfl, hnot⟩ | ⟨hhead, hslash, -, more, rfl⟩
    · exact ⟨rest, user, host, tail, rfl, huser, hnot, hcolon, hbad⟩
    · rcases hbad with hbad | hbad
      · exact absurd hbad hslash
      · refine absurd ?_ hhead
        rw [List.head?_append, hbad]
        rfl

/-- A location of SFTP is read again unless its host loses its brackets. -/
theorem parse_display_sftp {c : SftpConfig} (h : parseSftpUrl s = .ok c) :
    parse (sftp c).display = .ok (sftp c) ↔ ¬LosesBrackets s := by
  obtain ⟨rest, hostport, portStr, rfl, huser, hhost, hne, hne', hport⟩ := parseSftpUrl_ok_iff.1 h
  have hread := read_of_splitHost huser hhost hne hne' hport
  rw [losesBrackets_iff huser hhost]
  have hparse : parse (sftp c).display = .ok (sftp c) ↔
      parseSftpUrl (sftp c).display = .ok c := by
    rw [display_sftp, parse_sftp]
    cases parseSftpUrl (sftpScheme ++ (userText c.user ++
        (displayHost c.host ++ (portText c.port ++ '/' :: c.path)))) with
    | error e => exact ⟨nofun, nofun⟩
    | ok c' => exact ⟨fun h => by cases h; rfl, fun h => by cases h; rfl⟩
  rw [hparse]
  constructor
  · rintro hok ⟨hcolon, hbad⟩
    exact parseSftpUrl_display_ne hread hcolon hbad hok
  · intro hnot
    refine parseSftpUrl_display hread ?_
    rcases splitHost_cases hhost with ⟨tail, -, hbracket⟩ | ⟨hhead, hslash, hcolon, more, rfl⟩
    · by_cases hcolon : ':' ∈ c.host
      · exact .inl ⟨hcolon, hbracket⟩
      · right
        exact ⟨fun hs => hnot ⟨hcolon, .inl hs⟩, hcolon, fun hh => hnot ⟨hcolon, .inr hh⟩⟩
    · right
      exact ⟨hslash, hcolon, fun hh => hnot ⟨hcolon, .inr hh⟩⟩

theorem losesPath_iff {remote path : List Char} (h : '/' ∉ remote) :
    LosesPath (rcloneScheme ++ (remote ++ '/' :: path)) ↔ trimMatches '/' path = [] := by
  rw [trimMatches_eq_nil]
  constructor
  · rintro ⟨remote', slashes, heq, hslash, hall⟩
    rw [List.append_assoc] at heq
    have hsplit := splitOnce_append (b := path) h
    rw [List.append_cancel_left heq, splitOnce_append hslash] at hsplit
    cases hsplit
    exact hall
  · intro hall
    exact ⟨remote, path, (List.append_assoc _ _ _).symm, h, hall⟩

theorem parseRcloneUrl_ok {c : RcloneConfig} (h : parseRcloneUrl s = .ok c) : ∃ path,
    s = rcloneScheme ++ (c.remote ++ '/' :: path) ∧ c.path = trimMatches '/' path ∧
      validRemoteName c.remote ∧ ¬path.any isControl := by
  unfold parseRcloneUrl at h
  split at h
  · cases h
  · next rest hrest =>
    dsimp only at h
    split_ifs at h with hbad
    cases h
    push Not at hbad
    obtain ⟨hne, hvalid, hcontrol⟩ := hbad
    obtain rfl := stripPrefix_eq_some.1 hrest
    cases hsplit : splitOnce '/' rest with
    | none =>
      rw [hsplit] at hne
      exact absurd rfl hne
    | some parts =>
      rw [hsplit] at hvalid hcontrol
      obtain ⟨rfl, -⟩ := splitOnce_eq_some.1 hsplit
      exact ⟨parts.2, rfl, rfl, hvalid, hcontrol⟩

/-- The bucket and the prefix of a URL of S3. -/
def readS3 (s rest : List Char) : Except BackendError RepoLocation :=
  let parts := (splitOnce '/' rest).getD (rest, [])
  if parts.1 = [] then .error (.invalidUrl s) else .ok (s3 parts.1 (trimMatches '/' parts.2))

/-- What a string is read as. -/
theorem parse_cases (h : parse s = .ok loc) :
    (∃ rest, s = s3Scheme ++ rest ∧ readS3 s rest = .ok loc) ∨
      (∃ c, parseSftpUrl s = .ok c ∧ loc = sftp c) ∨
      (∃ c, parseRcloneUrl s = .ok c ∧ loc = rclone c) ∨
      (¬sftpScheme <+: s ∧ ¬rcloneScheme <+: s ∧ loc = local_ s) := by
  unfold parse at h
  split at h
  · next rest hrest =>
    exact .inl ⟨rest, stripPrefix_eq_some.1 hrest, h⟩
  · split_ifs at h with hsftp hrclone
    · cases hp : parseSftpUrl s with
      | error e =>
        rw [hp] at h
        cases h
      | ok c =>
        rw [hp] at h
        cases h
        exact .inr (.inl ⟨c, rfl, rfl⟩)
    · cases hp : parseRcloneUrl s with
      | error e =>
        rw [hp] at h
        cases h
      | ok c =>
        rw [hp] at h
        cases h
        exact .inr (.inr (.inl ⟨c, rfl, rfl⟩))
    · cases h
      exact .inr (.inr (.inr ⟨hsftp, hrclone, rfl⟩))

/-- Whether a location is read again. -/
theorem parse_display_iff (h : parse s = .ok loc) :
    parse loc.display = .ok loc ↔ ¬LosesBrackets s ∧ ¬LosesPath s := by
  rcases parse_cases h with ⟨rest, rfl, hs3⟩ | ⟨c, hc, rfl⟩ | ⟨c, hc, rfl⟩ | ⟨hsftp, hrclone, rfl⟩
  · have hkeeps : ¬LosesBrackets (s3Scheme ++ rest) ∧ ¬LosesPath (s3Scheme ++ rest) :=
      ⟨not_losesBrackets_of_other not_sftp_prefix_s3, not_losesPath_of_other not_rclone_prefix_s3⟩
    refine iff_of_true ?_ hkeeps
    unfold readS3 at hs3
    dsimp only at hs3
    split_ifs at hs3 with hne
    cases hs3
    refine parse_display_s3 hne ?_
    cases hsplit : splitOnce '/' rest with
    | none => exact splitOnce_eq_none.1 hsplit
    | some parts => exact (splitOnce_eq_some.1 hsplit).2
  · obtain ⟨rest, -, -, rfl, -⟩ := parseSftpUrl_ok_iff.1 hc
    rw [parse_display_sftp hc, and_iff_left (not_losesPath_of_other not_rclone_prefix_sftp)]
  · obtain ⟨path, rfl, hpath, hvalid, hcontrol⟩ := parseRcloneUrl_ok hc
    obtain ⟨remote, _⟩ := c
    obtain rfl := hpath
    rw [parse_display_rclone hvalid hcontrol, losesPath_iff (validRemoteName_slash hvalid),
      and_iff_right (not_losesBrackets_of_other not_sftp_prefix_rclone)]
  · exact iff_of_true h ⟨not_losesBrackets_of_other hsftp, not_losesPath_of_other hrclone⟩

/-- **What is shown is read again**, as the same location, for every string that does not lose the
brackets of its host or its path; and of those no two different locations are shown alike. -/
theorem location_round_trips (s : List Char) (h : parse s = .ok loc) :
    (parse loc.display = .ok loc ↔ ¬LosesBrackets s ∧ ¬LosesPath s) ∧
      ∀ s' loc', parse s' = .ok loc' → ¬LosesBrackets s ∧ ¬LosesPath s →
        ¬LosesBrackets s' ∧ ¬LosesPath s' → loc.display = loc'.display → loc = loc' := by
  refine ⟨parse_display_iff h, fun s' loc' h' hkeeps hkeeps' hsame => ?_⟩
  have hread := (parse_display_iff h).2 hkeeps
  rw [hsame, (parse_display_iff h').2 hkeeps'] at hread
  exact (Except.ok.inj hread).symm

end RepoLocation

theorem location_round_trips_bracketed :
    RepoLocation.parse "sftp://u@[2001:db8::1]:22/p".toList =
        .ok (.sftp ⟨some ['u'], "2001:db8::1".toList, 22, ['p']⟩) ∧
      RepoLocation.parse
          (RepoLocation.sftp ⟨some ['u'], "2001:db8::1".toList, 22, ['p']⟩).display =
        .ok (.sftp ⟨some ['u'], "2001:db8::1".toList, 22, ['p']⟩) ∧
      ¬RepoLocation.LosesBrackets "sftp://u@[2001:db8::1]:22/p".toList ∧
        ¬RepoLocation.LosesPath "sftp://u@[2001:db8::1]:22/p".toList := by
  have hread : RepoLocation.parse
      (RepoLocation.sftp ⟨some ['u'], "2001:db8::1".toList, 22, ['p']⟩).display =
        .ok (.sftp ⟨some ['u'], "2001:db8::1".toList, 22, ['p']⟩) := by decide
  exact ⟨by decide, hread, (RepoLocation.location_round_trips _ (by decide)).1.1 hread⟩

/-- The host `a/b` is shown without its brackets, as another location is; and a path of slashes is
shown as no path, which is refused. -/
theorem location_shown_as_another :
    RepoLocation.parse "sftp://[a/b]/p".toList = .ok (.sftp ⟨none, "a/b".toList, 22, ['p']⟩) ∧
      RepoLocation.parse (RepoLocation.sftp ⟨none, "a/b".toList, 22, ['p']⟩).display =
        .ok (.sftp ⟨none, ['a'], 22, "b/p".toList⟩) ∧
      (RepoLocation.sftp ⟨none, "a/b".toList, 22, ['p']⟩).display =
        (RepoLocation.sftp ⟨none, ['a'], 22, "b/p".toList⟩).display ∧
      RepoLocation.parse "rclone://g//".toList = .ok (.rclone ⟨['g'], []⟩) ∧
      RepoLocation.parse (RepoLocation.rclone ⟨['g'], []⟩).display =
        .error (.invalidUrl "rclone://g/".toList) := by
  decide

end Kist
