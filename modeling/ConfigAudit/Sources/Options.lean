/-!
# Source options

Which files a walk through a directory picks up: those whose names end in a suffix, outside of
directories of a given name.
-/

namespace ConfigAudit

/-- What is picked up from directories: the end of the names of files that are loaded, and the name
of directories that are skipped. -/
structure SourceOptions where
  suffix : String
  cacheDir : String
  deriving DecidableEq, Repr

/-- The options for configuration files of the usual name. -/
def SourceOptions.standard : SourceOptions := ⟨".tf", ".terraform"⟩

end ConfigAudit
