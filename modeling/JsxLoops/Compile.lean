import JsxLoops.Options
import JsxLoops.Report
import JsxLoops.Loop.Lower
import JsxLoops.Loop.Verify
import JsxLoops.Surface.RenderRoot
import JsxLoops.Tree.Build
import JsxLoops.Tree.Print

/-!
Compiling. A template is one expression; it is read, its loops are lowered, the result is verified
and printed. A component is a module; the markup that it renders is compiled as a template, and
the rest of the text stays as it is.
-/

namespace JsxLoops

open JsxLoops.Loop JsxLoops.Tree

/-- What is told of a lowered loop. -/
structure SiteReport where
  id : UInt32
  parent : Option UInt32
  itemName : String
  indexName : String
  keyToken : String
  source : String
  fields : List String
  itemSource : ItemSource
  binding : Binding
deriving DecidableEq, Repr

def SiteReport.ofSite (s : Store) (site : Site) : SiteReport where
  id := site.id
  parent := site.parent
  itemName := site.itemName
  indexName := site.indexName
  keyToken := site.keyToken
  source := s.print .concise site.source
  fields := site.schema.fieldNames
  itemSource := site.schema.itemSource
  binding := site.binding

structure Compiled where
  code : String
  sites : List SiteReport
  /-- The number of the next loop. -/
  nextId : UInt32
deriving DecidableEq, Repr

/-- Compiles a template, or gives the cause why that fails. -/
def compileText (options : Options) (source : List Char) : Except Fault Compiled := do
  let adapter ← options.adapter.resolve.mapError .adapter
  let some template := Template.parse source | throw (.template (String.ofList source))
  let (_, pass) := (lowerLoops adapter template.root).run
    { store := template.store, allocator := ⟨options.startId⟩, sites := [] }
  if options.verify then verify adapter pass.store pass.sites
  return {
    code := pass.store.print options.style template.root
    sites := pass.sites.map (SiteReport.ofSite pass.store)
    nextId := pass.allocator.next }

def compileTemplate (options : Options) (source : String) : Except Report Compiled :=
  (compileText options source.toList).mapError (Fault.report options.filePath)

/-- Compiles the markup that a component renders. Without such markup the text stays as it is. -/
def compileComponent (options : Options) (source : String) : Except Report Compiled :=
  let text := source.toList
  match Surface.renderRoot text with
  | none => .error (Fault.report options.filePath .module)
  | some none => .ok ⟨source, [], options.startId⟩
  | some (some span) => do
    let before := text.take span.start
    let compiled ← (compileText options (span.slice text)).mapError fun fault =>
      (fault.report options.filePath).relativeTo (.behind before)
    return { compiled with
      code := String.ofList before ++ compiled.code ++ String.ofList (text.drop span.stop) }

end JsxLoops
