import Chess.Cli.Program

namespace Chess

/-! The file system a scripted command line sees. It holds the usual directories of a Linux
system with their usual links, the empty device `/dev/null`, an empty standard input, the
process's own name in `/proc/self/comm`, and the text a request gives in `file` under the
name `@FILE`. A path is followed one name at a time, from the root when it starts with `/`
and from the working directory otherwise, which holds nothing of its own: empty names and `.`
stay where they are, `..` goes up, a link leads to its target, and every step must start
from a directory. A name that is not there fails with "no such file", a step out of a file
with "not a directory", and so does a path ending in `/` that reaches a file. A directory
opens but cannot be read. -/

namespace Script

def systemDirectories : List String :=
  ["/", "/boot", "/dev", "/dev/mqueue", "/dev/pts", "/dev/shm", "/etc", "/home", "/media",
    "/mnt", "/opt", "/proc", "/proc/1", "/proc/self", "/proc/self/fd", "/root", "/run",
    "/run/lock", "/srv", "/sys", "/tmp", "/usr", "/usr/bin", "/usr/games", "/usr/include",
    "/usr/lib", "/usr/lib64", "/usr/libexec", "/usr/local", "/usr/local/bin",
    "/usr/local/etc", "/usr/local/include", "/usr/local/lib", "/usr/local/sbin",
    "/usr/local/share", "/usr/local/src", "/usr/sbin", "/usr/share", "/usr/src", "/var",
    "/var/backups", "/var/cache", "/var/lib", "/var/local", "/var/log", "/var/mail",
    "/var/opt", "/var/spool", "/var/tmp"]

/-- The readable files of the system with their text: the empty device, the standard input,
which is empty, and the name of the running program. -/
def systemFiles : List (String × String) :=
  [("/dev/null", ""), ("/proc/self/fd/0", ""), ("/proc/self/comm", "chesskit\n")]

/-- Where a path has led so far: a directory or a file by absolute path, or the working
directory. -/
inductive Stop where
  | directory (path : String)
  | file (path : String)
  | working
  deriving DecidableEq, Repr

def systemLinks : List (String × Stop) :=
  [("/bin", .directory "/usr/bin"), ("/lib", .directory "/usr/lib"),
    ("/lib64", .directory "/usr/lib64"), ("/sbin", .directory "/usr/sbin"),
    ("/dev/fd", .directory "/proc/self/fd"), ("/dev/stdin", .file "/proc/self/fd/0"),
    ("/proc/self/root", .directory "/"), ("/proc/self/cwd", .working),
    ("/var/run", .directory "/run"), ("/var/lock", .directory "/run/lock")]

def within (dir name : String) : String :=
  if dir = "/" then "/" ++ name else dir ++ "/" ++ name

def above (dir : String) : String :=
  match (dir.splitOn "/").filter (· ≠ "") |>.dropLast with
  | [] => "/"
  | names => String.join (names.map ("/" ++ ·))

def follow (at_ : Stop) (name : String) : Except String Stop :=
  match at_ with
  | .file _ => .error Cli.notDirectory
  | .working =>
    if name = "." then .ok at_
    else if name = ".." then .ok (.directory "/")
    else .error Cli.missingFile
  | .directory dir =>
    if name = "." then .ok at_
    else if name = ".." then .ok (.directory (above dir))
    else
      let path := within dir name
      match systemLinks.lookup path with
      | some target => .ok target
      | none =>
        if systemDirectories.contains path then .ok (.directory path)
        else if (systemFiles.lookup path).isSome then .ok (.file path)
        else .error Cli.missingFile

def systemRead (path : String) : Cli.FileRead :=
  if path.isEmpty then .unopenable Cli.missingFile
  else
    let start : Stop := if path.startsWith "/" then .directory "/" else .working
    match ((path.splitOn "/").filter (· ≠ "")).foldlM follow start with
    | .error reason => .unopenable reason
    | .ok (.directory _) | .ok .working => .unreadable Cli.directoryFile
    | .ok (.file found) =>
      if path.endsWith "/" then .unopenable Cli.notDirectory
      else .contents ((systemFiles.lookup found).getD "")

/-- The file system of a request: its `file` text, when it gives one, under the name
`@FILE`, and the system's files otherwise. -/
def requestFiles (file : Option String) (path : String) : Cli.FileRead :=
  match file with
  | some body => if path = "@FILE" then .contents body else systemRead path
  | none => systemRead path

end Script

end Chess
