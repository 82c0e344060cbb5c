import JarIndex.Main
import JarIndex.Proofs.ClassFile.Acceptance
import JarIndex.Proofs.ClassFile.Faults
import JarIndex.Proofs.ClassFile.Truncation
import JarIndex.Proofs.Deflate.Compressed
import JarIndex.Proofs.Extraction.Balance
import JarIndex.Proofs.Extraction.Concurrency
import JarIndex.Proofs.Extraction.Ending
import JarIndex.Proofs.Extraction.Reordering
import JarIndex.Proofs.Extraction.Replacing
import JarIndex.Proofs.Text.Groups
import JarIndex.Proofs.Scan.Diagnosed
import JarIndex.Proofs.Extraction.Strict
import JarIndex.Proofs.Session.Flags
import JarIndex.Proofs.Path.Joined
import JarIndex.Proofs.FileTree.Resolution
import JarIndex.Proofs.Path.Order
import JarIndex.Proofs.Discovery.Walk
import JarIndex.Proofs.Discovery.Exact
import JarIndex.Proofs.FileTree.Agreement
import JarIndex.Proofs.Discovery.Ignoring
import JarIndex.Proofs.ClassFile.Errors
import JarIndex.Proofs.Ignore.Names
import JarIndex.Proofs.Report.Document
import JarIndex.Proofs.Report.Lines
import JarIndex.Proofs.PathList
import JarIndex.Proofs.CommandLine.Implicit
import JarIndex.Proofs.Extraction.Logged
import JarIndex.Proofs.Session.Inspected
