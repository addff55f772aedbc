import AluVM.Assembly
import AluVM.Command.Assemble
import AluVM.Command.Link
import AluVM.Files.Tree
import AluVM.Link.Merge
import AluVM.Listing.Dump
import AluVM.Main
import AluVM.Manifest
import AluVM.Proofs.Assembler
import AluVM.Proofs.Spelling
import AluVM.Proofs.MergedObjects
import AluVM.Proofs.ObjectFiles
import AluVM.Proofs.Packing
import AluVM.Proofs.LibraryFiles
import AluVM.Proofs.ContentAddress
import AluVM.Proofs.WellFormed
import AluVM.Proofs.Acceptance
import AluVM.Proofs.Recursion
import AluVM.Proofs.CallTable
import AluVM.Proofs.LinkedFiles
import AluVM.Proofs.Environments
import AluVM.Proofs.Renaming
import AluVM.Proofs.RenamedObjects
import AluVM.Proofs.Lexemes
import AluVM.Proofs.Phrases
import AluVM.Proofs.Grammar
import AluVM.Proofs.Splitting
import AluVM.Proofs.Numerals
import AluVM.Proofs.Meaning
import AluVM.Proofs.PrefixFree
import AluVM.Proofs.Reassembly
import AluVM.Proofs.LongNumbers
import AluVM.Proofs.Answers
import AluVM.Proofs.FileLinking
import AluVM.Proofs.Gaps
import AluVM.Proofs.Extensions
import AluVM.Proofs.Writes
import AluVM.Proofs.Runs
import AluVM.Proofs.AssembledFiles
import AluVM.Proofs.LinkedOutputs
import AluVM.Proofs.LibraryTable
import AluVM.Proofs.Dependencies
import AluVM.Proofs.Mergeable
import AluVM.Proofs.Demands
import AluVM.Proofs.Regrouping
import AluVM.Proofs.DeclaredItems
import AluVM.Proofs.DataTiles
import AluVM.Proofs.CodeOffsets
import AluVM.Proofs.RecordedCalls
import AluVM.Proofs.ObjectLimits
import AluVM.Proofs.IndependentReports
import AluVM.Proofs.JobCalls
import AluVM.Proofs.Scripts
import AluVM.Proofs.Positions
import AluVM.Proofs.Remarks
import AluVM.Proofs.SyntaxErrors
import AluVM.Proofs.PlaceValues
import AluVM.Proofs.SymbolRuns
