import HookPatch.Main
import HookPatch.Proofs.Agreement
import HookPatch.Proofs.Assembly.Strictness
import HookPatch.Proofs.Cursor.Sweep
import HookPatch.Proofs.Cursor.Zipper
import HookPatch.Proofs.Engine.CallSites
import HookPatch.Proofs.Engine.HookRow
import HookPatch.Proofs.Engine.HookStack
import HookPatch.Proofs.Engine.LastHook
import HookPatch.Proofs.Engine.Operation
import HookPatch.Proofs.Engine.Preserve
import HookPatch.Proofs.Engine.Recording
import HookPatch.Proofs.Engine.Redirection
import HookPatch.Proofs.Engine.Repetition
import HookPatch.Proofs.Engine.Runs
import HookPatch.Proofs.Engine.Shielding
import HookPatch.Proofs.Engine.Simultaneous
import HookPatch.Proofs.Engine.WellFormed
import HookPatch.Proofs.FileTree.Access
import HookPatch.Proofs.FileTree.Children
import HookPatch.Proofs.FileTree.Directories
import HookPatch.Proofs.FileTree.Extension
import HookPatch.Proofs.FileTree.Parents
import HookPatch.Proofs.Image.Names
import HookPatch.Proofs.Image.Units
import HookPatch.Proofs.Image.WellFormed
import HookPatch.Proofs.Json.Zero
import HookPatch.Proofs.Outcomes
import HookPatch.Proofs.Run.Calls
import HookPatch.Proofs.Run.Courses
import HookPatch.Proofs.Run.Decoding
import HookPatch.Proofs.Run.Failures
import HookPatch.Proofs.Run.History
import HookPatch.Proofs.Run.Identity
import HookPatch.Proofs.Run.Inputs
import HookPatch.Proofs.Run.Rebuild
import HookPatch.Proofs.Run.Reuse
import HookPatch.Proofs.Run.SameFingerprint
import HookPatch.Proofs.Run.SecondRun
import HookPatch.Proofs.Run.Sparing
import HookPatch.Proofs.Run.Steps
import HookPatch.Proofs.Run.StoredFingerprint
import HookPatch.Proofs.Run.Unchanged
import HookPatch.Proofs.Session.Ids
import HookPatch.Proofs.Session.Tables
import HookPatch.Proofs.Lookup
import HookPatch.Proofs.Mod.DependencyOrder
import HookPatch.Proofs.Mod.Discovery
import HookPatch.Proofs.Mod.Extended
import HookPatch.Proofs.Mod.LoadOrder
import HookPatch.Proofs.Mod.Reasons
import HookPatch.Proofs.Image.Code
import HookPatch.Proofs.Engine.Frames
import HookPatch.Proofs.Engine.HardHooks
import HookPatch.Proofs.Assembly.Printing
import HookPatch.Proofs.Engine.PassThrough
import HookPatch.Proofs.Evaluation.Machine
import HookPatch.Proofs.Evaluation.PassThrough
import HookPatch.Proofs.Engine.BadSource
import HookPatch.Proofs.Engine.Closed
import HookPatch.Proofs.Assembly.Listing
import HookPatch.Proofs.Assembly.Composition
import HookPatch.Proofs.Json.Lexing
import HookPatch.Proofs.Json.Tokens
import HookPatch.Proofs.Json.Number
import HookPatch.Proofs.ImageFile
import HookPatch.Proofs.Json.Writing
import HookPatch.Proofs.Json.Image
import HookPatch.Proofs.Engine.Refusals
import HookPatch.Proofs.Engine.FailedExport
import HookPatch.Proofs.Engine.NativeIds
import HookPatch.Proofs.Engine.Wrappers
import HookPatch.Proofs.Run.Contents
import HookPatch.Proofs.Engine.Originals
import HookPatch.Proofs.Engine.Dispatch
import HookPatch.Proofs.Session.Names
import HookPatch.Proofs.Json.Spelling
import HookPatch.Proofs.ImageDocument
import HookPatch.Proofs.Mod.Manifest
import HookPatch.Proofs.Run.Journal
