import QtMigration.Main
import QtMigration.Workload.Readers
import QtMigration.Workload.Sources
import QtMigration.Proofs.Report
import QtMigration.Proofs.Api.Dialog
import QtMigration.Proofs.Api.FromUtf8
import QtMigration.Proofs.CommandLine.Inputs
import QtMigration.Proofs.CommandLine.Origins
import QtMigration.Proofs.Frame.OldLibrary
import QtMigration.Proofs.Frame.Places
import QtMigration.Proofs.Frame.SecondRun
import QtMigration.Proofs.Graphics.Blocks
import QtMigration.Proofs.Graphics.Cursor
import QtMigration.Proofs.Graphics.Unbroken
import QtMigration.Proofs.Import.Answered
import QtMigration.Proofs.Import.Foreign
import QtMigration.Proofs.Import.NormalForm
import QtMigration.Proofs.Import.OneName
import QtMigration.Proofs.Import.Widgets
import QtMigration.Proofs.Import.Width
import QtMigration.Proofs.Retarget.Occurrences
import QtMigration.Proofs.Signal.Connected
import QtMigration.Proofs.Signal.Disconnection
import QtMigration.Proofs.Signal.Provided
import QtMigration.Proofs.Signal.ShortForm
import QtMigration.Proofs.Signal.Values
import QtMigration.Proofs.Source.Broken
import QtMigration.Proofs.Source.Statements
import QtMigration.Proofs.Api.Application
import QtMigration.Proofs.Api.Wheel
import QtMigration.Proofs.Signal.Stable
import QtMigration.Proofs.Api.Localized
import QtMigration.Proofs.Encoding.Declared
